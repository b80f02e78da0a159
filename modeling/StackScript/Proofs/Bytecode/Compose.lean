import StackScript.Proofs.Bytecode.Editing
import StackScript.Proofs.Bytecode.WellFormed
import StackScript.Proofs.Program.Scoping

/-!
Code that is generated is the code that its parts compose. Composing never fails for the sake of an
operand, and what it leaves behind only grows: so wherever an operand does not fit, the code that
comes out in the end has it too. A program compiles if and only if its names and operators are known
and all operands of its composed code fit, and then to just that code in bytes, from which every
operand reads back as it was (`Program.compiles_iff`).
-/

set_option autoImplicit false
set_option relaxedAutoImplicit false

namespace StackScript

open Instruction (size encodeAll)

/-! ### Operands that fit -/

namespace Instruction

/-- All operands of the code are within their widths. -/
def AllFit (code : List Instruction) : Prop :=
  ∀ instruction ∈ code, instruction.Fits

theorem allFit_nil : AllFit [] :=
  fun _ hmem ↦ absurd hmem List.not_mem_nil

theorem AllFit.append {first second : List Instruction} (h : AllFit first)
    (hsecond : AllFit second) : AllFit (first ++ second) :=
  fun instruction hmem ↦ (List.mem_append.mp hmem).elim (h instruction) (hsecond instruction)

/-- Every instruction is found in the bytes at its offset, with its operands as they are. -/
def Legible (code : List Instruction) : Prop :=
  ∀ before instruction behind, code = before ++ instruction :: behind →
    ∃ rest, (encodeAll code).drop (size before) = instruction.opcode.toByte :: rest ∧
      readOperands? instruction.opcode.widths rest =
        some (instruction.operands, encodeAll behind)

theorem AllFit.legible {code : List Instruction} (h : AllFit code) : Legible code := by
  rintro before instruction behind rfl
  have hfits : instruction.Fits := h instruction (by simp)
  refine ⟨encodeOperands instruction.opcode.widths instruction.operands ++ encodeAll behind,
    ?_, readOperands?_encodeOperands hfits (encodeAll behind)⟩
  rw [encodeAll_append, List.drop_left' (length_encodeAll before), encodeAll_cons, bytes_eq_cons,
    List.cons_append]

theorem oversized?_eq_none_iff {opcode : Opcode} {operands : List Nat}
    (hlength : operands.length = opcode.widths.length) :
    oversized? opcode.widths operands = none ↔ AllFit [⟨opcode, operands⟩] := by
  rw [AllFit, List.forall_mem_singleton]
  exact ⟨fits_of_oversized?_eq_none hlength, oversized?_eq_none_of_fits⟩

end Instruction

open Instruction (AllFit Legible)

namespace Outline

/-- The draft with the constants in bytes. -/
def draft (outline : Outline) : Draft :=
  ⟨outline.constants, outline.scopes⟩

/-- All operands fit in the functions among the constants. -/
def Fits (outline : Outline) : Prop :=
  ∀ piece ∈ outline.pieces, AllFit piece.code

theorem draft_push (outline : Outline) (piece : Piece) :
    draft { outline with pieces := outline.pieces.push piece } =
      { outline.draft with
        constants := outline.constants.push (piece.value (.literal outline.constants.size)) } := by
  simp [draft, constants, Array.mapIdx_push]

theorem fits_push {outline : Outline} {piece : Piece} :
    Fits { outline with pieces := outline.pieces.push piece } ↔
      outline.Fits ∧ AllFit piece.code := by
  simp [Fits, or_imp, forall_and]

end Outline

/-! ### Assembling and composing -/

namespace Composer

variable {α β : Type} {code : List Instruction}

/-- What did not fit before does not fit in the end. -/
def Grows (composition : Composer α) : Prop :=
  ∀ outline yielded after, composition outline = .ok yielded after → after.Fits → outline.Fits

/-- The code comes out again: if all fits that there is in the end, then it does. -/
def Keeps (code : List Instruction) (composition : Composer (List Instruction)) : Prop :=
  ∀ outline whole after, composition outline = .ok whole after → after.Fits →
    outline.Fits ∧ (AllFit whole → AllFit code)

theorem Keeps.grows {composition : Composer (List Instruction)} (h : Keeps code composition) :
    Grows composition :=
  fun outline whole after hwhole hfits ↦ (h outline whole after hwhole hfits).1

theorem Keeps.pure {whole : List Instruction} (h : ∀ instruction ∈ code, instruction ∈ whole) :
    Keeps code (Pure.pure whole) := by
  rintro outline _ _ ⟨⟩ hfits
  exact ⟨hfits, fun hwhole instruction hmem ↦ hwhole instruction (h instruction hmem)⟩

theorem Keeps.bind {composition : Composer α} {next : α → Composer (List Instruction)}
    (h : Grows composition) (hnext : ∀ yielded, Keeps code (next yielded)) :
    Keeps code (composition >>= next) := by
  intro outline whole after hwhole hfits
  obtain ⟨yielded, middle, hfirst, hrest⟩ := bind_eq_ok_iff.mp hwhole
  obtain ⟨hmiddle, hcode⟩ := hnext yielded middle whole after hrest hfits
  exact ⟨h outline yielded middle hfirst hmiddle, hcode⟩

/-- Assembling yields what composing yields, if all of that fits, and fails otherwise; `held` is the
code in what is yielded. -/
structure Agrees (held : α → List Instruction) (assembly : Assembly α) (composition : Composer α) :
    Prop where
  grows : Grows composition
  ok_iff (outline : Outline) (yielded : α) (draft : Draft) : outline.Fits →
    (assembly outline.draft = .ok yielded draft ↔ ∃ after, composition outline = .ok yielded after ∧
      after.Fits ∧ AllFit (held yielded) ∧ after.draft = draft)

variable {held : α → List Instruction} {assembly : Assembly α} {composition : Composer α}

theorem Agrees.bind {next : α → Assembly (List Instruction)}
    {more : α → Composer (List Instruction)} (h : Agrees held assembly composition)
    (hkeeps : ∀ yielded, Keeps (held yielded) (more yielded))
    (hnext : ∀ yielded, AllFit (held yielded) → Agrees id (next yielded) (more yielded)) :
    Agrees id (assembly >>= next) (composition >>= more) := by
  constructor
  · intro outline whole after hwhole hfits
    obtain ⟨yielded, between, hcomposed, hmore⟩ := bind_eq_ok_iff.mp hwhole
    exact h.grows _ _ _ hcomposed ((hkeeps yielded).grows _ _ _ hmore hfits)
  · intro outline whole draft hfits
    constructor
    · intro hwhole
      obtain ⟨yielded, middle, hfirst, hrest⟩ := bind_eq_ok_iff.mp hwhole
      obtain ⟨between, hcomposed, hbetween, hheld, rfl⟩ :=
        (h.ok_iff outline yielded middle hfits).mp hfirst
      obtain ⟨after, hmore, hafter⟩ :=
        ((hnext yielded hheld).ok_iff between whole draft hbetween).mp hrest
      exact ⟨after, (bind_of_ok hcomposed).trans hmore, hafter⟩
    · rintro ⟨after, hwhole, hafter, hall, rfl⟩
      obtain ⟨yielded, between, hcomposed, hmore⟩ := bind_eq_ok_iff.mp hwhole
      obtain ⟨hbetween, hheld⟩ := hkeeps yielded between whole after hmore hafter
      have hfirst := (h.ok_iff outline yielded between.draft hfits).mpr
        ⟨between, hcomposed, hbetween, hheld hall, rfl⟩
      refine (bind_of_ok hfirst).trans ?_
      exact ((hnext yielded (hheld hall)).ok_iff between whole after.draft hbetween).mpr
        ⟨after, hmore, hafter, hall, rfl⟩

/-- Both yield the same, or neither yields anything. -/
theorem Agrees.of_same (h : ∀ outline : Outline,
    (∃ yielded after, composition outline = .ok yielded after ∧
      assembly outline.draft = .ok yielded after.draft ∧ (after.Fits ↔ outline.Fits) ∧
      AllFit (held yielded)) ∨
    ∃ error other after draft, composition outline = .error error after ∧
      assembly outline.draft = .error other draft) : Agrees held assembly composition := by
  constructor
  · intro outline yielded after hcomposed hfits
    rcases h outline with ⟨_, _, hsame, _, hiff, _⟩ | ⟨_, _, _, _, hfails, _⟩
    · cases hcomposed.symm.trans hsame
      exact hiff.mp hfits
    · cases hcomposed.symm.trans hfails
  · intro outline yielded draft hfits
    rcases h outline with ⟨same, after, hcomposed, hassembled, hiff, hheld⟩ |
      ⟨_, _, _, _, hcomposed, hassembled⟩
    · rw [hcomposed, hassembled]
      constructor
      · rintro ⟨⟩
        exact ⟨after, rfl, hiff.mpr hfits, hheld, rfl⟩
      · rintro ⟨_, ⟨⟩, _, _, rfl⟩
        rfl
    · simp [hcomposed, hassembled]

theorem Agrees.pure (h : AllFit code) : Agrees id (Pure.pure code) (Pure.pure code) :=
  .of_same fun outline ↦ .inl ⟨code, outline, rfl, rfl, Iff.rfl, h⟩

theorem Agrees.throw (error other : CompileError) :
    Agrees held (MonadExcept.throw error) (MonadExcept.throw other) :=
  .of_same fun outline ↦ .inr ⟨other, error, outline, outline.draft, rfl, rfl⟩

/-! ### Instructions -/

/-- The action yields this code if it fits, and fails otherwise. -/
def Checks (code : List Instruction) (action : Assembly (List Instruction)) : Prop :=
  ∀ draft yielded after,
    action draft = .ok yielded after ↔ yielded = code ∧ after = draft ∧ AllFit code

theorem checks_instruction {opcode : Opcode} {operands : List Nat}
    (hlength : operands.length = opcode.widths.length) :
    Checks [⟨opcode, operands⟩] (Assembly.instruction opcode operands) := by
  intro draft yielded after
  rw [← Instruction.oversized?_eq_none_iff hlength, Assembly.instruction]
  cases Instruction.oversized? opcode.widths operands with
  | none =>
    constructor
    · rintro ⟨⟩
      exact ⟨rfl, rfl, rfl⟩
    · rintro ⟨rfl, rfl, _⟩
      rfl
  | some operand => simp

theorem checks_load (symbol : Symbol) : Checks [symbol.loading] (Assembly.load symbol) := by
  unfold Assembly.load Symbol.loading
  cases symbol.place <;> exact checks_instruction rfl

theorem Checks.append {first second : List Instruction} {action next : Assembly (List Instruction)}
    (h : Checks first action) (hnext : Checks second next) :
    Checks (first ++ second) (do return (← action) ++ (← next)) := by
  intro draft yielded after
  constructor
  · intro hwhole
    obtain ⟨_, _, hfirst, hrest⟩ := bind_eq_ok_iff.mp hwhole
    obtain ⟨_, _, hsecond, ⟨⟩⟩ := bind_eq_ok_iff.mp hrest
    obtain ⟨rfl, rfl, hfits⟩ := (h _ _ _).mp hfirst
    obtain ⟨rfl, rfl, hmore⟩ := (hnext _ _ _).mp hsecond
    exact ⟨rfl, rfl, hfits.append hmore⟩
  · rintro ⟨rfl, rfl, hall⟩
    obtain ⟨hfits, hmore⟩ := List.forall_mem_append.mp hall
    rw [bind_of_ok ((h after first after).mpr ⟨rfl, rfl, hfits⟩),
      bind_of_ok ((hnext after second after).mpr ⟨rfl, rfl, hmore⟩)]
    rfl

theorem checks_loadAll (symbols : List Symbol) :
    Checks (symbols.map Symbol.loading) (Assembly.loadAll symbols) := by
  induction symbols with
  | nil =>
    intro draft yielded after
    simp [Assembly.loadAll, AllFit, eq_comm]
  | cons symbol rest ih => exact (checks_load symbol).append ih

/-- Code that is checked on the way to code that it comes out in. -/
theorem Checks.agrees {action : Assembly (List Instruction)}
    {next : List Instruction → Assembly (List Instruction)}
    {composition : Composer (List Instruction)} (h : Checks code action)
    (hkeeps : Keeps code composition) (hnext : AllFit code → Agrees id (next code) composition) :
    Agrees id (action >>= next) composition := by
  refine ⟨hkeeps.grows, fun outline whole draft hfits ↦ ?_⟩
  constructor
  · intro hwhole
    obtain ⟨yielded, middle, hfirst, hrest⟩ := bind_eq_ok_iff.mp hwhole
    obtain ⟨rfl, rfl, hcode⟩ := (h _ _ _).mp hfirst
    exact ((hnext hcode).ok_iff outline whole draft hfits).mp hrest
  · rintro ⟨after, hwhole, hafter, hall, rfl⟩
    have hcode := (hkeeps outline whole after hwhole hafter).2 hall
    refine (bind_of_ok ((h outline.draft code outline.draft).mpr ⟨rfl, rfl, hcode⟩)).trans ?_
    exact ((hnext hcode).ok_iff outline whole after.draft hfits).mpr
      ⟨after, hwhole, hafter, hall, rfl⟩

theorem Checks.alone {action : Assembly (List Instruction)} (h : Checks code action) :
    Agrees id action (Pure.pure code) := by
  rw [← bind_pure action]
  exact h.agrees (.pure fun _ hmem ↦ hmem) .pure

/-- One instruction behind code that fits. -/
theorem agrees_after {opcode : Opcode} {operands : List Nat} (hcode : AllFit code)
    (hlength : operands.length = opcode.widths.length) :
    Agrees id (do return code ++ (← Assembly.instruction opcode operands))
      (Pure.pure (code ++ [⟨opcode, operands⟩])) :=
  (checks_instruction hlength).agrees (.pure fun _ ↦ List.mem_append_right _) fun hlast ↦
    .pure (hcode.append hlast)

/-! ### Operators -/

theorem grows_prefixOperator (op : String) : Grows (prefixOperator op) := by
  unfold prefixOperator
  cases Opcode.ofPrefix? op with
  | none => rintro _ _ _ ⟨⟩
  | some opcode =>
    rintro _ _ _ ⟨⟩ hfits
    exact hfits

theorem grows_infixOperator (op : String) : Grows (infixOperator op) := by
  unfold infixOperator
  cases Opcode.ofInfix? op with
  | none => rintro _ _ _ ⟨⟩
  | some opcode =>
    rintro _ _ _ ⟨⟩ hfits
    exact hfits

theorem agrees_prefixOperator (hcode : AllFit code) (op : String) :
    Agrees id
      (match Opcode.ofPrefix? op with
        | some opcode => do return code ++ (← Assembly.instruction opcode [])
        | none => throw (.unknownPrefixOperator op))
      (do return code ++ [⟨← prefixOperator op, []⟩]) := by
  unfold prefixOperator
  cases hop : Opcode.ofPrefix? op with
  | none => exact .throw _ _
  | some opcode => rcases Opcode.eq_of_ofPrefix? hop with rfl | rfl <;> exact agrees_after hcode rfl

theorem agrees_infixOperator (hcode : AllFit code) (op : String) :
    Agrees id
      (match Opcode.ofInfix? op with
        | some opcode => do return code ++ (← Assembly.instruction opcode [])
        | none => throw (.unknownInfixOperator op))
      (do return code ++ [⟨← infixOperator op, []⟩]) := by
  unfold infixOperator
  cases hop : Opcode.ofInfix? op with
  | none => exact .throw _ _
  | some opcode =>
    have hwidths : ∀ opcode ∈ [Opcode.add, .sub, .mul, .div, .equal, .notEqual, .greaterThan],
        0 = opcode.widths.length := by decide
    exact agrees_after hcode (hwidths opcode (Opcode.mem_of_ofInfix? hop))

/-! ### Constants and names -/

theorem agrees_addPiece {constant : Label → Value} (piece : Piece)
    (h : ∀ label, constant label = piece.value label) (hcode : AllFit piece.code) :
    Agrees (fun _ ↦ []) (Assembly.addConstant constant) (addPiece piece) := by
  obtain rfl : constant = fun label ↦ piece.value label := funext h
  refine .of_same fun outline ↦ .inl ⟨_, _, rfl, ?_, ?_, Instruction.allFit_nil⟩
  · rw [outline.draft_push]
    have hentry : outline.constants.size = outline.pieces.size := Array.size_mapIdx
    rw [← hentry]
    rfl
  · rw [Outline.fits_push]
    exact and_iff_left hcode

theorem agrees_define (name : String) :
    Agrees (fun _ ↦ []) (Assembly.define name) (define name) :=
  .of_same fun _ ↦ .inl ⟨_, _, rfl, rfl, Iff.rfl, Instruction.allFit_nil⟩

theorem agrees_resolve (name : String) :
    Agrees (fun _ ↦ []) (Assembly.resolve name) (resolve name) := by
  refine .of_same fun outline ↦ ?_
  have hscopes : outline.draft.scopes = outline.scopes := rfl
  unfold Assembly.resolve resolve
  rw [hscopes]
  cases outline.scopes.resolve name with
  | none => exact .inr ⟨_, _, _, _, rfl, rfl⟩
  | some found => exact .inl ⟨_, _, rfl, rfl, Iff.rfl, Instruction.allFit_nil⟩

/-- The code of a function is among the constants. -/
theorem keeps_addPiece (piece : Piece) {next : Nat → Composer (List Instruction)}
    (h : ∀ entry, Grows (next entry)) : Keeps piece.code (addPiece piece >>= next) := by
  intro outline whole after hwhole hfits
  obtain ⟨_, _, ⟨⟩, hrest⟩ := bind_eq_ok_iff.mp hwhole
  obtain ⟨houtline, hcode⟩ := Outline.fits_push.mp (h _ _ whole after hrest hfits)
  exact ⟨houtline, fun _ ↦ hcode⟩

theorem agrees_inFunction {name : Option String} {parameters : List String}
    {body : Assembly (List Instruction)} {composed : Composer (List Instruction)}
    (h : Agrees id body composed) :
    Agrees Prod.fst (Assembly.inFunction name parameters body)
      (inFunction name parameters composed) := by
  constructor
  · intro outline yielded after hwhole hfits
    unfold inFunction at hwhole
    split at hwhole
    · next hcode =>
      cases hwhole
      have hinner : Outline.Fits
          { outline with scopes := Assembly.enter name parameters outline.scopes } :=
        h.grows _ _ _ hcode hfits
      exact hinner
    · cases hwhole
  · intro outline yielded draft hfits
    let inner : Outline :=
      { outline with scopes := Assembly.enter name parameters outline.scopes }
    have hbody := h.ok_iff inner
    constructor
    · intro hwhole
      unfold Assembly.inFunction at hwhole
      split at hwhole
      · next code last hcode =>
        cases hwhole
        obtain ⟨after, hcomposed, hafter, hall, rfl⟩ := (hbody code last hfits).mp hcode
        have hwhole : inFunction name parameters composed outline = .ok (code, after.scopes.current)
            { after with scopes := after.scopes.leave?.getD {} } := by
          rw [inFunction, hcomposed]
        exact ⟨_, hwhole, hafter, hall, rfl⟩
      · cases hwhole
    · rintro ⟨after, hwhole, hafter, hall, rfl⟩
      unfold inFunction at hwhole
      split at hwhole
      · next code last hcode =>
        cases hwhole
        have hassembled := (hbody code last.draft hfits).mpr ⟨last, hcode, hafter, hall, rfl⟩
        change body { outline.draft with
          scopes := Assembly.enter name parameters outline.draft.scopes } = _ at hassembled
        rw [Assembly.inFunction, hassembled]
        rfl
      · cases hwhole

end Composer

/-! ### Programs -/

open Composer

/-- Both parts of a branch with the jumps around them. -/
theorem agrees_branch {test first second : Nat → Assembly (List Instruction)}
    {condition consequence alternative : Nat → Composer (List Instruction)}
    (htest : ∀ start, Agrees id (test start) (condition start))
    (hfirst : ∀ start, Agrees id (first start) (consequence start))
    (hsecond : ∀ start, Agrees id (second start) (alternative start)) (start : Nat) :
    Agrees id
      (do
        let test ← test start
        let first ← first (start + size test + 3)
        let otherwise := start + size test + 3 + size first + 3
        let pass ← Assembly.instruction .jumpNotTruthy [otherwise]
        let second ← second otherwise
        let finish ← Assembly.instruction .jump [otherwise + size second]
        return test ++ pass ++ first ++ finish ++ second)
      (do
        let test ← condition start
        let first ← consequence (start + size test + 3)
        let otherwise := start + size test + 3 + size first + 3
        let second ← alternative otherwise
        return test ++ [⟨.jumpNotTruthy, [otherwise]⟩] ++ first ++
          [⟨.jump, [otherwise + size second]⟩] ++ second) := by
  refine (htest start).bind (fun test ↦ .bind (hfirst _).grows fun first ↦
    .bind (hsecond _).grows fun second ↦ .pure (by simp +contextual)) fun test hfits ↦ ?_
  refine (hfirst _).bind (fun first ↦ .bind (hsecond _).grows fun second ↦
    .pure (by simp +contextual)) fun first hmore ↦ ?_
  -- the jump over the first part is held against its place before there is a second part
  refine (checks_instruction rfl).agrees (.bind (hsecond _).grows fun second ↦
    .pure (by simp +contextual)) fun hpass ↦ ?_
  refine (hsecond _).bind (fun second ↦ .pure (by simp +contextual)) fun second hlast ↦ ?_
  refine (checks_instruction rfl).agrees (.pure (by simp)) fun hfinish ↦ .pure ?_
  exact (((hfits.append hpass).append hmore).append hfinish).append hlast

mutual

theorem Expr.agrees : (expr : Expr) → ∀ start,
    Agrees id (expr.assemble start) (expr.compose start)
  | .int value, start => by
    rw [Expr.assemble, Expr.compose]
    refine (agrees_addPiece (.int value) (fun _ ↦ rfl) Instruction.allFit_nil).bind
      (fun _ ↦ .pure (by simp)) fun entry _ ↦ ?_
    exact (checks_instruction rfl).alone
  | .str content, start => by
    rw [Expr.assemble, Expr.compose]
    refine (agrees_addPiece (.str content) (fun _ ↦ rfl) Instruction.allFit_nil).bind
      (fun _ ↦ .pure (by simp)) fun entry _ ↦ ?_
    exact (checks_instruction rfl).alone
  | .bool value, start => by
    rw [Expr.assemble, Expr.compose]
    cases value <;> exact (checks_instruction rfl).alone
  | .ident name, start => by
    rw [Expr.assemble, Expr.compose]
    refine (agrees_resolve name).bind (fun _ ↦ .pure (by simp)) fun symbol _ ↦ ?_
    exact (checks_load symbol).alone
  | .unary op operand, start => by
    rw [Expr.assemble, Expr.compose]
    refine (operand.agrees start).bind (fun code ↦ .bind (grows_prefixOperator op) fun opcode ↦
      .pure (by simp +contextual)) fun code hcode ↦ ?_
    exact agrees_prefixOperator hcode op
  | .binary op left right, start => by
    rw [Expr.assemble, Expr.compose]
    split
    · refine (right.agrees start).bind (fun second ↦ .bind (left.agrees _).grows fun first ↦
        .pure (by simp +contextual)) fun second hsecond ↦ ?_
      refine (left.agrees _).bind (fun first ↦ .pure (by simp +contextual)) fun first hfirst ↦ ?_
      exact agrees_after (hsecond.append hfirst) rfl
    · refine (left.agrees start).bind (fun first ↦ .bind (right.agrees _).grows fun second ↦
        .bind (grows_infixOperator op) fun opcode ↦ .pure (by simp +contextual))
        fun first hfirst ↦ ?_
      refine (right.agrees _).bind (fun second ↦ .bind (grows_infixOperator op) fun opcode ↦
        .pure (by simp +contextual)) fun second hsecond ↦ ?_
      exact agrees_infixOperator (hfirst.append hsecond) op
  | .branch condition consequence none, start => by
    rw [Expr.assemble, Expr.compose]
    exact agrees_branch condition.agrees (Stmt.agreesAll consequence .keep)
      (fun _ ↦ (checks_instruction rfl).alone) start
  | .branch condition consequence (some alternative), start => by
    rw [Expr.assemble, Expr.compose]
    exact agrees_branch condition.agrees (Stmt.agreesAll consequence .keep)
      (Stmt.agreesAll alternative .keep) start
  | .function parameters body name, start => by
    rw [Expr.assemble, Expr.compose]
    have hbody : Agrees id
        (do Assembly.endBody (Stmt.returns body) (← Stmt.assembleAll body .giveBack 0))
        (do
          let code ← Stmt.composeAll body .giveBack 0
          return if Stmt.returns body then code else code ++ [⟨.ret, []⟩]) := by
      refine (Stmt.agreesAll body .giveBack 0).bind (fun code ↦ .pure ?_) fun code hcode ↦ ?_
      · split <;> simp +contextual
      · unfold Assembly.endBody
        split
        · exact .pure hcode
        · exact agrees_after hcode rfl
    refine (agrees_inFunction hbody).bind ?_ ?_
    · rintro ⟨code, scope⟩
      exact keeps_addPiece (.function code _ _) fun _ ↦ Keeps.grows (.pure fun _ hmem ↦ hmem)
    · rintro ⟨code, scope⟩ hcode
      have hpiece := agrees_addPiece (.function code scope.definitions parameters.length)
        (fun _ ↦ rfl) hcode
      refine (checks_loadAll scope.captured).agrees (.bind hpiece.grows fun entry ↦ .pure
        fun _ ↦ List.mem_append_left _) fun hloads ↦ ?_
      exact hpiece.bind (fun entry ↦ .pure (by simp)) fun entry _ ↦ agrees_after hloads rfl
  | .call callee arguments, start => by
    rw [Expr.assemble, Expr.compose]
    refine (callee.agrees start).bind (fun first ↦ .bind (Expr.agreesAll arguments _).grows
      fun others ↦ .pure (by simp +contextual)) fun first hfirst ↦ ?_
    refine (Expr.agreesAll arguments _).bind (fun others ↦ .pure (by simp +contextual))
      fun others hothers ↦ ?_
    exact agrees_after (hfirst.append hothers) rfl
  | .array elements, start => by
    rw [Expr.assemble, Expr.compose]
    refine (Expr.agreesAll elements start).bind (fun code ↦ .pure (by simp +contextual))
      fun code hcode ↦ ?_
    exact agrees_after hcode rfl
  | .hash pairs, start => by
    rw [Expr.assemble, Expr.compose]
    refine (Expr.agreesPairs pairs start).bind (fun code ↦ .pure (by simp +contextual))
      fun code hcode ↦ ?_
    exact agrees_after hcode rfl
  | .index collection position, start => by
    rw [Expr.assemble, Expr.compose]
    refine (collection.agrees start).bind (fun first ↦ .bind (position.agrees _).grows
      fun second ↦ .pure (by simp +contextual)) fun first hfirst ↦ ?_
    refine (position.agrees _).bind (fun second ↦ .pure (by simp +contextual))
      fun second hsecond ↦ ?_
    exact agrees_after (hfirst.append hsecond) rfl

theorem Stmt.agrees : (stmt : Stmt) → ∀ ending start,
    Agrees id (stmt.assemble ending start) (stmt.compose ending start)
  | .eval expr, ending, start => by
    rw [Stmt.assemble, Stmt.compose]
    refine (expr.agrees start).bind (fun code ↦ .pure (by simp +contextual)) fun code hcode ↦ ?_
    refine .pure (hcode.append ?_)
    cases ending
    · exact List.forall_mem_singleton.mpr .nil
    · exact Instruction.allFit_nil
    · exact List.forall_mem_singleton.mpr .nil
  | .bind name value, ending, start => by
    rw [Stmt.assemble, Stmt.compose]
    refine (agrees_define name).bind (fun symbol ↦ .bind (value.agrees start).grows fun code ↦
      .pure (by simp)) fun symbol _ ↦ ?_
    refine (value.agrees start).bind (fun code ↦ .pure (by simp +contextual)) fun code hcode ↦ ?_
    refine agrees_after hcode ?_
    split <;> rfl
  | .ret value, ending, start => by
    rw [Stmt.assemble, Stmt.compose]
    refine (value.agrees start).bind (fun code ↦ .pure (by simp +contextual)) fun code hcode ↦ ?_
    exact agrees_after hcode rfl

theorem Stmt.agreesAll : (stmts : List Stmt) → ∀ ending start,
    Agrees id (Stmt.assembleAll stmts ending start) (Stmt.composeAll stmts ending start)
  | [], ending, start => by
    rw [Stmt.assembleAll, Stmt.composeAll]
    exact .pure Instruction.allFit_nil
  | stmt :: rest, ending, start => by
    rw [Stmt.assembleAll, Stmt.composeAll]
    refine (stmt.agrees _ start).bind (fun first ↦ .bind (Stmt.agreesAll rest ending _).grows
      fun others ↦ .pure (by simp +contextual)) fun first hfirst ↦ ?_
    refine (Stmt.agreesAll rest ending _).bind (fun others ↦ .pure (by simp +contextual))
      fun others hothers ↦ ?_
    exact .pure (hfirst.append hothers)

theorem Expr.agreesAll : (exprs : List Expr) → ∀ start,
    Agrees id (Expr.assembleAll exprs start) (Expr.composeAll exprs start)
  | [], start => by
    rw [Expr.assembleAll, Expr.composeAll]
    exact .pure Instruction.allFit_nil
  | expr :: rest, start => by
    rw [Expr.assembleAll, Expr.composeAll]
    refine (expr.agrees start).bind (fun first ↦ .bind (Expr.agreesAll rest _).grows
      fun others ↦ .pure (by simp +contextual)) fun first hfirst ↦ ?_
    refine (Expr.agreesAll rest _).bind (fun others ↦ .pure (by simp +contextual))
      fun others hothers ↦ ?_
    exact .pure (hfirst.append hothers)

theorem Expr.agreesPairs : (pairs : List (Expr × Expr)) → ∀ start,
    Agrees id (Expr.assemblePairs pairs start) (Expr.composePairs pairs start)
  | [], start => by
    rw [Expr.assemblePairs, Expr.composePairs]
    exact .pure Instruction.allFit_nil
  | (key, value) :: rest, start => by
    rw [Expr.assemblePairs, Expr.composePairs]
    refine (key.agrees start).bind (fun first ↦ .bind (value.agrees _).grows fun second ↦
      .bind (Expr.agreesPairs rest _).grows fun others ↦ .pure (by simp +contextual))
      fun first hfirst ↦ ?_
    refine (value.agrees _).bind (fun second ↦ .bind (Expr.agreesPairs rest _).grows
      fun others ↦ .pure (by simp +contextual)) fun second hsecond ↦ ?_
    refine (Expr.agreesPairs rest _).bind (fun others ↦ .pure (by simp +contextual))
      fun others hothers ↦ ?_
    exact .pure ((hfirst.append hsecond).append hothers)

end

/-! ### Whole programs -/

theorem Composed.allFit_instructions {composed : Composed} :
    AllFit composed.instructions ↔ AllFit composed.code ∧ composed.outline.Fits := by
  simp only [instructions, AllFit, Outline.Fits, List.mem_append, List.mem_flatMap,
    Array.mem_toList_iff, or_imp, forall_and, forall_exists_index, and_imp]
  exact and_congr_right fun _ ↦ forall_comm.trans (forall_congr' fun _ ↦ forall_comm)

theorem Composed.bytecode_moved {composed : Composed} {buffer : Buffer}
    (h : buffer.code = Builder.new.buffer.code ++ encodeAll composed.code) :
    (Builder.new.moved composed.outline.draft buffer).bytecode = composed.bytecode := by
  have hcode : buffer.code = (encodeAll composed.code).toArray := by
    rw [h]
    exact Array.ext' (by simp [Builder.new, Builder.resume])
  rw [Builder.bytecode, Builder.buffer_moved, hcode]
  rfl

namespace Program

variable {program : Program}

theorem compose_eq_ok {composed : Composed} : program.compose = .ok composed ↔
    Stmt.composeAll program.statements .discard 0 { scopes := Builder.bindBuiltins {} } =
      .ok composed.code composed.outline := by
  unfold compose
  cases Stmt.composeAll program.statements .discard 0 { scopes := Builder.bindBuiltins {} } with
  | ok code outline =>
    constructor
    · rintro ⟨⟩
      rfl
    · rintro ⟨⟩
      rfl
  | error error outline => simp

theorem assembleAll_new_iff {code : List Instruction} {draft : Draft} :
    Stmt.assembleAll program.statements .discard Builder.new.buffer.code.size Builder.new.draft =
        .ok code draft ↔
      ∃ composed, program.compose = .ok composed ∧ AllFit composed.instructions ∧
        composed.code = code ∧ composed.outline.draft = draft := by
  have hempty : Outline.Fits { scopes := Builder.bindBuiltins {} } :=
    fun _ hmem ↦ absurd hmem (Array.not_mem_empty _)
  have hagrees := (Stmt.agreesAll program.statements .discard 0).ok_iff _ code draft hempty
  refine hagrees.trans ⟨?_, ?_⟩
  · rintro ⟨after, hcomposed, hafter, hall, hdraft⟩
    exact ⟨⟨code, after⟩, compose_eq_ok.mpr hcomposed,
      Composed.allFit_instructions.mpr ⟨hall, hafter⟩, rfl, hdraft⟩
  · rintro ⟨composed, hcomposed, hfits, rfl, hdraft⟩
    obtain ⟨hall, hafter⟩ := Composed.allFit_instructions.mp hfits
    exact ⟨composed.outline, compose_eq_ok.mp hcomposed, hafter, hall, hdraft⟩

/-- A program compiles to the bytes of the code it composes, if all of that fits. -/
theorem add_new_iff {bytecode : Bytecode} :
    (∃ builder, Builder.new.add program = (none, builder) ∧ builder.bytecode = bytecode) ↔
      ∃ composed, program.compose = .ok composed ∧ AllFit composed.instructions ∧
        composed.bytecode = bytecode := by
  have hadd := add_eq_assemble Builder.new program
  constructor
  · rintro ⟨builder, hbuilder, rfl⟩
    cases hassemble : Stmt.assembleAll program.statements .discard Builder.new.buffer.code.size
        Builder.new.draft with
    | error error draft =>
      rw [hassemble] at hadd
      obtain ⟨_, hfails⟩ := hadd
      cases hbuilder.symm.trans hfails
    | ok code draft =>
      rw [hassemble] at hadd
      obtain ⟨buffer, hbuffer, hcode⟩ := hadd
      cases hbuilder.symm.trans hbuffer
      obtain ⟨composed, hcomposed, hfits, rfl, rfl⟩ := assembleAll_new_iff.mp hassemble
      exact ⟨composed, hcomposed, hfits, (Composed.bytecode_moved hcode).symm⟩
  · rintro ⟨composed, hcomposed, hfits, rfl⟩
    rw [assembleAll_new_iff.mpr ⟨composed, hcomposed, hfits, rfl, rfl⟩] at hadd
    obtain ⟨buffer, hbuffer, hcode⟩ := hadd
    exact ⟨_, hbuffer, Composed.bytecode_moved hcode⟩

end Program

/-- Spec §4.2 and §E5, when compiling fails. For any program: it has composed code if and only if
its names and operators are known where they stand, and a new builder takes it if and only if,
moreover, all operands of that code fit. What the builder then has is the composed code in bytes,
and every operand reads back from them as it was, so none is cut. -/
theorem Program.compiles_iff (program : Program) :
    ((∃ composed, program.compose = .ok composed) ↔ program.Scoped ∧ program.Operable) ∧
    ((∃ builder, Builder.new.add program = (none, builder)) ↔
      program.Scoped ∧ program.Operable ∧ ∀ composed, program.compose = .ok composed →
        AllFit composed.instructions) ∧
    ∀ builder, Builder.new.add program = (none, builder) → ∃ composed,
      program.compose = .ok composed ∧ builder.bytecode = composed.bytecode ∧
      Legible composed.code ∧ ∀ piece ∈ composed.outline.pieces, Legible piece.code := by
  have hcompose := program.compose_eq_ok_iff
  refine ⟨hcompose, ⟨?_, ?_⟩, ?_⟩
  · rintro ⟨builder, hadd⟩
    obtain ⟨composed, hcomposed, hfits, _⟩ := add_new_iff.mp ⟨builder, hadd, rfl⟩
    obtain ⟨hscoped, hoperable⟩ := hcompose.mp ⟨composed, hcomposed⟩
    refine ⟨hscoped, hoperable, fun other hother ↦ ?_⟩
    cases hcomposed.symm.trans hother
    exact hfits
  · rintro ⟨hscoped, hoperable, hfits⟩
    obtain ⟨composed, hcomposed⟩ := hcompose.mpr ⟨hscoped, hoperable⟩
    obtain ⟨builder, hadd, _⟩ := add_new_iff.mpr
      ⟨composed, hcomposed, hfits composed hcomposed, rfl⟩
    exact ⟨builder, hadd⟩
  · intro builder hadd
    obtain ⟨composed, hcomposed, hfits, hbytes⟩ := add_new_iff.mp ⟨builder, hadd, rfl⟩
    obtain ⟨hcode, hpieces⟩ := Composed.allFit_instructions.mp hfits
    exact ⟨composed, hcomposed, hbytes.symm, hcode.legible,
      fun piece hpiece ↦ (hpieces piece hpiece).legible⟩

-- `if (true) { 10 }; 3333;`: the target of each jump is where the other part begins or ends
example : (Program.mk [.eval (.branch (.bool true) [.eval (.int 10)] none),
    .eval (.int 3333)]).compose.map Composed.code = .ok
      [⟨.true, []⟩, ⟨.jumpNotTruthy, [10]⟩, ⟨.constant, [0]⟩, ⟨.jump, [11]⟩, ⟨.null, []⟩,
        ⟨.pop, []⟩, ⟨.constant, [1]⟩, ⟨.pop, []⟩] := by
  rfl

end StackScript
