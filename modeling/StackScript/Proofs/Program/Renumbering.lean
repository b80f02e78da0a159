import StackScript.Program.Scoping
import StackScript.Proofs.Bytecode.Part
import StackScript.Proofs.Machine.Renumbering
import StackScript.Proofs.Scope.Renumbering

/-!
Assembling under other numbers. From two drafts that hold the same constants and agree on the names
that a part uses, but for numbers that were used up in one of them, the part is assembled into code
that differs in these numbers alone (`Part.renumbered`); if it cannot be assembled, the error is the
same, and the drafts hold the same constants and agree on these names still. It is the draft with
the higher numbers that leads: an operand that fits there fits in the other one.
-/

set_option autoImplicit false
set_option relaxedAutoImplicit false

namespace StackScript

open Instruction (encodeAll size)

variable {gaps : Gaps}

/-- An operand does not fit in its place. -/
def CompileError.IsTooLarge (error : CompileError) : Prop :=
  ∃ opcode operand, error = .operandTooLarge opcode operand

/-- The drafts hold the same constants and agree on names, but for numbers that were used up. -/
structure Draft.Renumbered (gaps : Gaps) (agreed : List (String → Prop)) (draft other : Draft) :
    Prop where
  scopes : draft.scopes.Renumbered gaps agreed other.scopes
  constants : PoolRenumbered gaps draft.constants other.constants
  first : gaps.entries.first ≤ draft.constants.size
  size : other.constants.size = draft.constants.size + gaps.entries.count

theorem Draft.Renumbered.mono {agreed fewer : String → Prop} {more : List (String → Prop)}
    {draft other : Draft} (h : draft.Renumbered gaps (agreed :: more) other)
    (hfewer : ∀ name, fewer name → agreed name) : draft.Renumbered gaps (fewer :: more) other :=
  { h with scopes := h.scopes.mono hfewer }

/-- The same code under other numbers, all of which fit. -/
def CodeRenumbered (gaps : Gaps) (code other : List Instruction) : Prop :=
  other = code.map (.renumber gaps) ∧ ∀ instruction ∈ code, (instruction.renumber gaps).Fits

namespace CodeRenumbered

variable {first second code other : List Instruction}

theorem nil : CodeRenumbered gaps [] [] :=
  ⟨rfl, by simp⟩

theorem append (hfirst : CodeRenumbered gaps first code)
    (hsecond : CodeRenumbered gaps second other) :
    CodeRenumbered gaps (first ++ second) (code ++ other) := by
  obtain ⟨rfl, hfitsFirst⟩ := hfirst
  obtain ⟨rfl, hfitsSecond⟩ := hsecond
  refine ⟨List.map_append.symm, fun instruction hmem ↦ ?_⟩
  exact (List.mem_append.mp hmem).elim (hfitsFirst instruction) (hfitsSecond instruction)

theorem size_eq (h : CodeRenumbered gaps code other) : size other = size code := by
  rw [h.1, Instruction.size_map_renumber]

theorem routine (h : CodeRenumbered gaps code other) (locals parameters : Nat) :
    Routine.Renumbered gaps ⟨(encodeAll code).toArray, locals, parameters⟩
      ⟨(encodeAll other).toArray, locals, parameters⟩ :=
  ⟨rfl, rfl, code, rfl, by rw [h.1], h.2⟩

end CodeRenumbered

namespace Assembly

variable {α β γ δ : Type} {related : α → γ → Prop} {further : β → δ → Prop}
  {agreed middle after : String → Prop} {more : List (String → Prop)} {draft other : Draft}

/-- The second action, which leads, and the first one do the same: they yield what is related, or
fail with the same error, unless that is for an operand that is too large. -/
abbrev Matches (related : α → γ → Prop) (gaps : Gaps) (more : List (String → Prop))
    (agreed after : String → Prop) (action : Assembly α) (counterpart : Assembly γ)
    (draft other : Draft) : Prop :=
  Mirrors CompileError.IsTooLarge counterpart action other draft
    (fun given other yielded draft ↦
      related yielded given ∧ draft.Renumbered gaps (after :: more) other)
    fun failure other error draft ↦
      failure = error ∧ draft.Renumbered gaps (agreed :: more) other

theorem Matches.bind {action : Assembly α} {counterpart : Assembly γ} {next : α → Assembly β}
    {then' : γ → Assembly δ}
    (h : Matches related gaps more agreed middle action counterpart draft other)
    (hgrows : ∀ name, agreed name → middle name)
    (hnext : ∀ yielded given draft other, related yielded given →
      draft.Renumbered gaps (middle :: more) other →
      Matches further gaps more middle after (next yielded) (then' given) draft other) :
    Matches further gaps more agreed after (action >>= next) (counterpart >>= then') draft
      other := by
  refine Mirrors.bind h fun given other yielded draft hdone ↦ ?_
  obtain ⟨hfollows, hfails⟩ := hnext yielded given draft other hdone.1 hdone.2
  refine ⟨hfollows, fun error last herror ↦ (hfails error last herror).imp_right ?_⟩
  rintro ⟨same, end', hsame, heq, hlast⟩
  exact ⟨same, end', hsame, heq, hlast.mono hgrows⟩

theorem Matches.mono {action : Assembly α} {counterpart : Assembly γ}
    (h : Matches related gaps more agreed middle action counterpart draft other)
    (hfewer : ∀ name, after name → middle name) :
    Matches related gaps more agreed after action counterpart draft other :=
  Mirrors.mono h fun _ _ _ _ hdone ↦ ⟨hdone.1, hdone.2.mono hfewer⟩

theorem Matches.pure (h : draft.Renumbered gaps (agreed :: more) other) {yielded : α} {given : γ}
    (hrelated : related yielded given) :
    Matches related gaps more agreed agreed (Pure.pure yielded) (Pure.pure given) draft other :=
  Mirrors.pure ⟨hrelated, h⟩

theorem Matches.throw (h : draft.Renumbered gaps (agreed :: more) other) (error : CompileError) :
    Matches related gaps more agreed after (MonadExcept.throw error) (MonadExcept.throw error) draft
      other :=
  Mirrors.throw ⟨rfl, h⟩

/-- One instruction. Its operands are the larger ones in the counterpart. -/
theorem matches_instruction (h : draft.Renumbered gaps (agreed :: more) other) {opcode : Opcode}
    {operands others : List Nat}
    (hsame : Instruction.renumber gaps ⟨opcode, operands⟩ = ⟨opcode, others⟩)
    (hlength : others.length = opcode.widths.length) :
    Matches (CodeRenumbered gaps) gaps more agreed agreed (instruction opcode operands)
      (instruction opcode others) draft other := by
  cases hother : Instruction.oversized? opcode.widths others with
  | some operand =>
    exact .of_excused (by rw [instruction, hother]) ⟨opcode, operand, rfl⟩
  | none =>
    have hfits := Instruction.fits_of_oversized?_eq_none hlength hother
    rw [← hsame] at hfits
    have hnone := Instruction.oversized?_eq_none_of_fits hfits.of_renumber
    refine .of_ok (by rw [instruction, hother]) (by rw [instruction, hnone]) ⟨⟨?_, ?_⟩, h⟩
    · rw [List.map_singleton, hsame]
    · simpa using hfits

/-- An instruction behind the code so far. -/
theorem matches_instruction_after (h : draft.Renumbered gaps (agreed :: more) other)
    {code counterpart : List Instruction} (hcode : CodeRenumbered gaps code counterpart)
    {opcode : Opcode} {operands others : List Nat}
    (hsame : Instruction.renumber gaps ⟨opcode, operands⟩ = ⟨opcode, others⟩)
    (hlength : others.length = opcode.widths.length) :
    Matches (CodeRenumbered gaps) gaps more agreed agreed
      (do return code ++ (← instruction opcode operands))
      (do return counterpart ++ (← instruction opcode others)) draft other :=
  (matches_instruction h hsame hlength).bind (fun _ ↦ id) fun _ _ _ _ hown h ↦
    .pure h (hcode.append hown)

/-- A constant gets an entry beyond those that were used up. -/
theorem matches_addConstant (h : draft.Renumbered gaps (agreed :: more) other)
    {constant counterpart : Label → Value}
    (hconstant : ∀ label,
      (constant label).RenumberedConstant gaps (counterpart (gaps.label label))) :
    Matches (fun entry given ↦ given = gaps.entries.skip entry) gaps more agreed agreed
      (addConstant constant) (addConstant counterpart) draft other := by
  have hsize : other.constants.size = gaps.entries.skip draft.constants.size := by
    rw [Gap.skip_of_le h.first, h.size]
  refine .of_ok rfl rfl ⟨hsize, ⟨h.scopes, ?_, ?_, ?_⟩⟩
  · intro entry found hfound
    dsimp only at hfound ⊢
    rw [Array.getElem?_push] at hfound
    split at hfound
    · next hlast =>
      cases hfound
      rw [hlast, ← hsize]
      refine ⟨_, Array.getElem?_push_size, ?_⟩
      rw [hsize]
      exact hconstant (.literal draft.constants.size)
    · obtain ⟨same, hsame, hrenumbered⟩ := h.constants entry found hfound
      exact ⟨same, extends_push _ _ _ _ hsame, hrenumbered⟩
  · simpa only [Array.size_push] using Nat.le_succ_of_le h.first
  · simp only [Array.size_push, h.size]
    omega

theorem matches_define (h : draft.Renumbered gaps (agreed :: more) other) (name : String) :
    Matches (fun symbol given ↦ given = symbol.renumber gaps) gaps more agreed
      (fun title ↦ title = name ∨ agreed title) (define name) (define name) draft other := by
  obtain ⟨hsymbol, hscopes⟩ := h.scopes.define name
  exact .of_ok rfl rfl ⟨hsymbol, { h with scopes := hscopes }⟩

theorem matches_resolve (h : draft.Renumbered gaps (agreed :: more) other) {name : String}
    (hname : agreed name) :
    Matches (fun symbol given ↦ given = symbol.renumber gaps) gaps more agreed agreed (resolve name)
      (resolve name) draft other := by
  have hresolve := h.scopes.resolve hname
  cases hfound : draft.scopes.resolve name with
  | none =>
    cases hgiven : other.scopes.resolve name with
    | none => exact .of_error (by rw [resolve, hgiven]) (by rw [resolve, hfound]) ⟨rfl, h⟩
    | some given =>
      rw [hfound, hgiven] at hresolve
      cases hresolve
  | some found =>
    obtain ⟨symbol, scopes⟩ := found
    have hfirst : resolve name draft = .ok symbol { draft with scopes := scopes } := by
      rw [resolve, hfound]
    cases hgiven : other.scopes.resolve name with
    | none =>
      rw [hfound, hgiven] at hresolve
      cases hresolve
    | some given =>
      obtain ⟨counterpart, same⟩ := given
      have hother : resolve name other = .ok counterpart { other with scopes := same } := by
        rw [resolve, hgiven]
      rw [hfound, hgiven] at hresolve
      cases hresolve with
      | some hrelated =>
        exact .of_ok hother hfirst ⟨hrelated.1, { h with scopes := hrelated.2 }⟩

theorem matches_load (h : draft.Renumbered gaps (agreed :: more) other) (symbol : Symbol) :
    Matches (CodeRenumbered gaps) gaps more agreed agreed (load symbol)
      (load (symbol.renumber gaps)) draft other := by
  have hplace : (symbol.renumber gaps).place = symbol.place := rfl
  unfold load
  rw [hplace]
  unfold Symbol.renumber
  cases symbol.place <;> exact matches_instruction h rfl rfl

theorem matches_loadAll (h : draft.Renumbered gaps (agreed :: more) other) (symbols : List Symbol) :
    Matches (CodeRenumbered gaps) gaps more agreed agreed (loadAll symbols)
      (loadAll (symbols.map (.renumber gaps))) draft other := by
  induction symbols generalizing draft other with
  | nil => exact .pure h .nil
  | cons symbol rest ih =>
    refine (matches_load h symbol).bind (fun _ ↦ id) fun _ _ _ _ hfirst h ↦ ?_
    exact (ih h).bind (fun _ ↦ id) fun _ _ _ _ hrest h ↦ .pure h (hfirst.append hrest)

theorem matches_endBody (h : draft.Renumbered gaps (agreed :: more) other) (returns : Bool)
    {code counterpart : List Instruction} (hcode : CodeRenumbered gaps code counterpart) :
    Matches (CodeRenumbered gaps) gaps more agreed agreed (endBody returns code)
      (endBody returns counterpart) draft other := by
  cases returns with
  | true => exact .pure h hcode
  | false => exact matches_instruction_after h hcode rfl rfl

theorem inFunction_of_ok {name : Option String} {parameters : List String}
    {body : Assembly (List Instruction)} {code : List Instruction} {last : Draft}
    (h : body { draft with scopes := enter name parameters draft.scopes } = .ok code last) :
    inFunction name parameters body draft =
      .ok (code, last.scopes.current) { last with scopes := last.scopes.leave?.getD {} } := by
  rw [inFunction, h]

theorem inFunction_of_error {name : Option String} {parameters : List String}
    {body : Assembly (List Instruction)} {error : CompileError} {last : Draft}
    (h : body { draft with scopes := enter name parameters draft.scopes } = .error error last) :
    inFunction name parameters body draft =
      .error error { last with scopes := last.scopes.leave?.getD {} } := by
  rw [inFunction, h]

/-- The body of a function, whose scope holds the same. -/
theorem matches_inFunction (h : draft.Renumbered gaps (agreed :: more) other)
    {name : Option String} {parameters : List String}
    {body counterpart : Assembly (List Instruction)}
    (hbody : ∀ draft other,
      draft.Renumbered gaps (Scopes.agreedInside name parameters agreed :: agreed :: more) other →
      Matches (CodeRenumbered gaps) gaps (agreed :: more)
        (Scopes.agreedInside name parameters agreed) after body counterpart draft other) :
    Matches (fun left right ↦ CodeRenumbered gaps left.1 right.1 ∧ right.2 = left.2.renumber gaps)
      gaps more agreed agreed (inFunction name parameters body)
      (inFunction name parameters counterpart) draft other := by
  have hinside : Draft.Renumbered gaps _ { draft with scopes := enter name parameters draft.scopes }
      { other with scopes := enter name parameters other.scopes } :=
    { h with scopes := h.scopes.enter name parameters }
  obtain ⟨hfollows, hfails⟩ := hbody _ _ hinside
  cases hwhole : counterpart { other with scopes := enter name parameters other.scopes } with
  | ok code last =>
    obtain ⟨own, same, hown, hcode, hlast⟩ := hfollows _ _ hwhole
    obtain ⟨hscope, hleft⟩ := hlast.scopes.leave
    exact .of_ok (inFunction_of_ok hwhole) (inFunction_of_ok hown)
      ⟨⟨hcode, hscope⟩, { hlast with scopes := hleft }⟩
  | error error last =>
    rcases hfails _ _ hwhole with hlarge | ⟨failure, same, hown, rfl, hlast⟩
    · exact .of_excused (inFunction_of_error hwhole) hlarge
    · exact .of_error (inFunction_of_error hwhole) (inFunction_of_error hown)
        ⟨rfl, { hlast with scopes := hlast.scopes.leave.2 }⟩

end Assembly

/-! ### Parts -/

/-- The instruction behind parts has no number in it. -/
theorem Instruction.renumber_of_closing {opcode : Opcode} (h : opcode ∈ Part.closings)
    (operands : List Nat) : renumber gaps ⟨opcode, operands⟩ = ⟨opcode, operands⟩ := by
  unfold renumber
  split
  case h_5 => rfl
  all_goals
    rename_i heq
    cases heq
    exact absurd h (by decide)

namespace Part

open Assembly

/-- The names that are known behind a part, unless it uses one that is not known there. -/
def names? : Part → List String → Option (List String)
  | expr tree => tree.names?
  | stmt tree _ => tree.names?
  | stmts trees _ => Stmt.namesAll? trees
  | exprs trees => Expr.namesAll? trees
  | pairs trees => Expr.namesPairs? trees

/-- The names that are known behind parts in order. -/
def namesInOrder? : List Part → List String → Option (List String)
  | [], known => some known
  | part :: rest, known => (part.names? known).bind (namesInOrder? rest)

def Shape.names? : Shape → List String → Option (List String)
  | literal _, known => some known
  | ident name, known => if name ∈ known then some known else none
  | sequence parts _, known => namesInOrder? parts known
  | branch condition consequence alternative, known =>
    namesInOrder? (condition :: consequence :: alternative.toList) known
  | function parameters body name, known =>
    (Stmt.namesAll? body (parameters ++ (name.toList ++ known))).map fun _ ↦ known
  | binding name value, known => value.names? (name :: known)

theorem names?_eq (part : Part) (known : List String) :
    part.names? known = part.shape.names? known := by
  cases part with
  | expr tree =>
    cases tree with
    | binary op left right =>
      rw [names?, Expr.names?, shape]
      split <;> simp [Shape.names?, namesInOrder?, names?]
    | branch condition consequence alternative =>
      cases alternative <;>
        simp [names?, Expr.names?, shape, Shape.names?, namesInOrder?]
    | _ => simp [names?, Expr.names?, shape, Shape.names?, namesInOrder?]
  | stmt tree ending =>
    cases tree <;> simp [names?, Stmt.names?, shape, Shape.names?, namesInOrder?]
  | stmts trees ending =>
    cases trees <;> simp [names?, Stmt.namesAll?, shape, Shape.names?, namesInOrder?]
  | exprs trees => cases trees <;> simp [names?, Expr.namesAll?, shape, Shape.names?, namesInOrder?]
  | pairs trees =>
    cases trees <;> simp [names?, Expr.namesPairs?, shape, Shape.names?, namesInOrder?]

variable {known later : List String} {agreed : String → Prop} {more : List (String → Prop)}
  {draft other : Draft}

/-- The names agreed on and those known. -/
def also (agreed : String → Prop) (known : List String) (name : String) : Prop :=
  agreed name ∨ name ∈ known

theorem agreed_of_also (h : ∀ name ∈ known, agreed name) (name : String)
    (hname : also agreed known name) : agreed name :=
  hname.elim id (h name)

/-- If the names that a part uses are known, and the drafts agree on them, then the part is
assembled alike from both, and they agree on the names known behind it. -/
def IsRenumbered (gaps : Gaps) (part : Part) : Prop :=
  ∀ {known later : List String} {agreed : String → Prop} {more : List (String → Prop)}
    {draft other : Draft}, part.names? known = some later → (∀ name ∈ known, agreed name) →
      draft.Renumbered gaps (agreed :: more) other → ∀ start,
        Matches (CodeRenumbered gaps) gaps more agreed (also agreed later) (part.assemble start)
          (part.assemble start) draft other

/-- The parts in order. -/
theorem renumbered_inOrder {parts : List Part} (hparts : ∀ part ∈ parts, part.IsRenumbered gaps)
    (hnames : namesInOrder? parts known = some later) (hknown : ∀ name ∈ known, agreed name)
    (h : draft.Renumbered gaps (agreed :: more) other) (start : Nat) :
    Matches (CodeRenumbered gaps) gaps more agreed (also agreed later) (assembleInOrder parts start)
      (assembleInOrder parts start) draft other := by
  induction parts generalizing known agreed draft other start with
  | nil =>
    cases hnames
    exact Matches.mono (.pure h .nil) (agreed_of_also hknown)
  | cons part rest ih =>
    rw [List.forall_mem_cons] at hparts
    obtain ⟨middle, hfirst, hrest⟩ := Option.bind_eq_some_iff.mp hnames
    have hmore : ∀ name, also agreed later name → also (also agreed middle) later name :=
      fun name hname ↦ hname.imp_left .inl
    refine (hparts.1 hfirst hknown h start).bind (fun _ ↦ .inl) fun code _ _ _ hcode h ↦ ?_
    rw [hcode.size_eq]
    refine Matches.mono ?_ hmore
    refine (ih hparts.2 hrest (fun _ ↦ .inr) h _).bind (fun _ ↦ .inl) fun _ _ _ _ hothers h ↦ ?_
    exact .pure h (hcode.append hothers)

/-- The alternative of a branch, or null in its place. -/
theorem renumbered_option {part? : Option Part} (hpart : ∀ part ∈ part?, part.IsRenumbered gaps)
    (hnames : namesInOrder? part?.toList known = some later) (hknown : ∀ name ∈ known, agreed name)
    (h : draft.Renumbered gaps (agreed :: more) other) (start : Nat) :
    Matches (CodeRenumbered gaps) gaps more agreed (also agreed later) (assembleOption part? start)
      (assembleOption part? start) draft other := by
  cases part? with
  | none =>
    cases hnames
    have hnull : Matches (CodeRenumbered gaps) gaps more agreed agreed (instruction .null [])
        (instruction .null []) draft other := matches_instruction h rfl rfl
    exact hnull.mono (agreed_of_also hknown)
  | some part =>
    obtain ⟨_, hfirst, ⟨⟩⟩ := Option.bind_eq_some_iff.mp hnames
    exact hpart part rfl hfirst hknown h start

theorem renumbered_literal {constant : Label → Value}
    (hconstant : ∀ label, (constant label).RenumberedConstant gaps (constant (gaps.label label)))
    (hnames : (Shape.literal constant).names? known = some later)
    (hknown : ∀ name ∈ known, agreed name)
    (h : draft.Renumbered gaps (agreed :: more) other) (start : Nat) :
    Matches (CodeRenumbered gaps) gaps more agreed (also agreed later)
      ((Shape.literal constant).assemble start) ((Shape.literal constant).assemble start) draft
      other := by
  cases hnames
  refine Matches.mono ?_ (agreed_of_also hknown)
  refine (matches_addConstant h hconstant).bind (fun _ ↦ id) ?_
  rintro entry _ _ _ rfl h
  exact matches_instruction h rfl rfl

theorem renumbered_branch {condition consequence : Part} {alternative : Option Part}
    (hparts : ∀ part ∈ (Shape.branch condition consequence alternative).pieces,
      part.IsRenumbered gaps)
    (hnames : (Shape.branch condition consequence alternative).names? known = some later)
    (hknown : ∀ name ∈ known, agreed name) (h : draft.Renumbered gaps (agreed :: more) other)
    (start : Nat) :
    Matches (CodeRenumbered gaps) gaps more agreed (also agreed later)
      ((Shape.branch condition consequence alternative).assemble start)
      ((Shape.branch condition consequence alternative).assemble start) draft other := by
  simp only [Shape.pieces, List.forall_mem_cons, Option.mem_toList] at hparts
  obtain ⟨tested, htest, hnames⟩ := Option.bind_eq_some_iff.mp hnames
  obtain ⟨taken, hfirst, hsecond⟩ := Option.bind_eq_some_iff.mp hnames
  have hmore : ∀ name, also agreed later name →
      also (also (also agreed tested) taken) later name :=
    fun name hname ↦ hname.imp_left fun hold ↦ .inl (.inl hold)
  refine Matches.mono ?_ hmore
  refine (hparts.1 htest hknown h start).bind (fun _ ↦ .inl) fun test _ _ _ hcondition h ↦ ?_
  rw [hcondition.size_eq]
  refine (hparts.2.1 hfirst (fun _ ↦ .inr) h _).bind (fun _ ↦ .inl) fun first _ _ _ hthen h ↦ ?_
  rw [hthen.size_eq]
  refine (matches_instruction h rfl rfl).bind (fun _ ↦ id) fun _ _ _ _ hpass h ↦ ?_
  refine (renumbered_option hparts.2.2 hsecond (fun _ ↦ .inr) h _).bind (fun _ ↦ .inl)
    fun second _ _ _ helse h ↦ ?_
  rw [helse.size_eq]
  refine (matches_instruction h rfl rfl).bind (fun _ ↦ id) fun _ _ _ _ hfinish h ↦ ?_
  exact .pure h ((((hcondition.append hpass).append hthen).append hfinish).append helse)

theorem renumbered_function {parameters : List String} {body : List Stmt} {name : Option String}
    (hbody : (stmts body .giveBack).IsRenumbered gaps)
    (hnames : (Shape.function parameters body name).names? known = some later)
    (hknown : ∀ name ∈ known, agreed name) (h : draft.Renumbered gaps (agreed :: more) other)
    (start : Nat) :
    Matches (CodeRenumbered gaps) gaps more agreed (also agreed later)
      ((Shape.function parameters body name).assemble start)
      ((Shape.function parameters body name).assemble start) draft other := by
  obtain ⟨inner, hinner, rfl⟩ := Option.map_eq_some_iff.mp hnames
  have hinside : ∀ title ∈ parameters ++ (name.toList ++ known),
      Scopes.agreedInside name parameters agreed title := by
    intro title hmem
    rw [List.mem_append, List.mem_append] at hmem
    exact hmem.imp_right fun hrest ↦ hrest.imp_right (hknown title)
  refine Matches.mono ?_ (agreed_of_also hknown)
  refine (matches_inFunction h fun _ _ h ↦ (hbody hinner hinside h 0).bind (fun _ ↦ .inl)
    fun _ _ _ _ hcode h ↦ matches_endBody h _ hcode).bind (fun _ ↦ id) ?_
  rintro ⟨code, scope⟩ ⟨_, _⟩ draft other ⟨hcode, rfl⟩ h
  refine (matches_loadAll h scope.captured).bind (fun _ ↦ id) fun loads _ _ _ hloads h ↦ ?_
  refine (matches_addConstant h fun label ↦ .routine label (hcode.routine _ _)).bind (fun _ ↦ id) ?_
  rintro entry _ _ _ rfl h
  have hlength : (scope.renumber gaps).captured.length = scope.captured.length := List.length_map _
  rw [hlength]
  exact matches_instruction_after h hloads rfl rfl

theorem renumbered_binding {name : String} {value : Part} (hvalue : value.IsRenumbered gaps)
    (hnames : (Shape.binding name value).names? known = some later)
    (hknown : ∀ name ∈ known, agreed name) (h : draft.Renumbered gaps (agreed :: more) other)
    (start : Nat) :
    Matches (CodeRenumbered gaps) gaps more agreed (also agreed later)
      ((Shape.binding name value).assemble start) ((Shape.binding name value).assemble start) draft
      other := by
  refine Matches.mono ?_ fun title htitle ↦
    (show also (fun title ↦ title = name ∨ agreed title) later title from htitle.imp_left .inr)
  refine (matches_define h name).bind (fun _ ↦ .inr) ?_
  rintro symbol _ draft other rfl h
  have hnew : ∀ title ∈ name :: known, title = name ∨ agreed title := by
    intro title hmem
    exact (List.mem_cons.mp hmem).imp_right (hknown title)
  refine (hvalue hnames hnew h start).bind (fun _ ↦ .inl) fun code _ _ _ hcode h ↦ ?_
  have hplace : (symbol.renumber gaps).place = symbol.place := rfl
  dsimp only
  rw [hplace]
  by_cases hglobal : symbol.place = .global
  · have hindex : (symbol.renumber gaps).index = gaps.slots.skip symbol.index := if_pos hglobal
    rw [if_pos hglobal, hindex]
    exact matches_instruction_after h hcode rfl rfl
  · have hindex : (symbol.renumber gaps).index = symbol.index := if_neg hglobal
    rw [if_neg hglobal, hindex]
    exact matches_instruction_after h hcode rfl rfl

/-- A part is assembled alike from both drafts. -/
theorem renumbered (part : Part) : part.IsRenumbered gaps := by
  induction part using Part.induction with
  | step part ih =>
    intro known later agreed more draft other hnames hknown h start
    rw [part.names?_eq] at hnames
    rw [part.assemble_eq]
    have hregular := part.regular
    generalize part.shape = shape at ih hnames hregular ⊢
    cases hregular with
    | integer value =>
      exact renumbered_literal (fun _ ↦ .literal (Value.Renumbered.integer value)) hnames hknown h
        start
    | string content =>
      exact renumbered_literal (fun label ↦ .literal (Value.Renumbered.string label content)) hnames
        hknown h start
    | ident name =>
      simp only [Shape.names?] at hnames
      split at hnames
      · next hname =>
        cases hnames
        refine Matches.mono ?_ (agreed_of_also hknown)
        refine (matches_resolve h (hknown name hname)).bind (fun _ ↦ id) ?_
        rintro symbol _ _ _ rfl h
        exact matches_load h symbol
      · cases hnames
    | sequence parts =>
      refine (renumbered_inOrder ih hnames hknown h start).bind (fun _ ↦ .inl)
        fun code _ _ _ hcode h ↦ ?_
      simp only [Closing.assemble, pure_bind, List.append_nil]
      exact .pure h hcode
    | failure parts error =>
      exact (renumbered_inOrder ih hnames hknown h start).bind (fun _ ↦ .inl)
        fun code _ _ _ hcode h ↦ .throw h error
    | @operation parts opcode operands hopcode hlength =>
      refine (renumbered_inOrder ih hnames hknown h start).bind (fun _ ↦ .inl)
        fun code _ _ _ hcode h ↦ ?_
      exact matches_instruction_after h hcode (Instruction.renumber_of_closing hopcode operands)
        hlength
    | branch => exact renumbered_branch ih hnames hknown h start
    | function => exact renumbered_function (ih _ List.mem_cons_self) hnames hknown h start
    | binding => exact renumbered_binding (ih _ List.mem_cons_self) hnames hknown h start

end Part

end StackScript
