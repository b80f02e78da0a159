import StackScript.Proofs.Bytecode.Editing
import StackScript.Proofs.Program.Scoping

/-!
Generating code only adds. Whatever is generated, and whether or not it comes to its end, the code
and the constants that were there before stay at the front, the code of the functions around stays
as it is, and the scopes around gain nothing but names that are captured (`Builder.Extends`). What
is taken back or changed at the end of a block lies behind the code that was there when its `if`
began.
-/

set_option autoImplicit false
set_option relaxedAutoImplicit false

namespace StackScript

/-! ### Scopes around -/

/-- The scope, in which names that it did not know have been captured. -/
inductive Scope.Gains (before : Scope) : Scope → Prop
  | refl : Gains before before
  | capture {after : Scope} (h : Gains before after) (outside : Symbol)
    (hunknown : after.find? outside.name = none) : Gains before (after.capture outside).2

namespace Scope

theorem Gains.trans {first second third : Scope} (h : first.Gains second)
    (hnext : second.Gains third) : first.Gains third := by
  induction hnext with
  | refl => exact h
  | capture _ outside hunknown ih => exact ih.capture outside hunknown

theorem Gains.definitions {before after : Scope} (h : before.Gains after) :
    after.definitions = before.definitions := by
  induction h with
  | refl => rfl
  | capture _ _ _ ih => exact ih

theorem gainsAll_refl (outer : List Scope) : List.Forall₂ Gains outer outer :=
  List.forall₂_same.mpr fun _ _ ↦ .refl

theorem gainsAll_trans {first second third : List Scope} (h : List.Forall₂ Gains first second)
    (hnext : List.Forall₂ Gains second third) : List.Forall₂ Gains first third := by
  induction h generalizing third with
  | nil => exact hnext
  | cons hscope _ ih =>
    cases hnext with
    | cons hmore hrest => exact .cons (hscope.trans hmore) (ih hrest)

end Scope

/-- Looking a name up captures it at most, where it was not known. -/
theorem Scopes.gains_of_resolveFrom {name : String} {current : Scope} {outer : List Scope}
    {symbol : Symbol} {after : Scopes} (h : resolveFrom name current outer = some (symbol, after)) :
    current.Gains after.current ∧ List.Forall₂ Scope.Gains outer after.outer := by
  induction outer generalizing current symbol after with
  | nil =>
    simp only [resolveFrom] at h
    split at h <;> cases h
    exact ⟨.refl, .nil⟩
  | cons around outer ih =>
    simp only [resolveFrom] at h
    split at h
    · cases h
      exact ⟨.refl, Scope.gainsAll_refl _⟩
    · next hunknown =>
      split at h
      · cases h
      · next found scopes hfound =>
        obtain ⟨haround, houter⟩ := ih hfound
        split at h
        · cases h
          exact ⟨.refl, .cons haround houter⟩
        · cases h
          refine ⟨.capture .refl found ?_, .cons haround houter⟩
          rw [name_of_resolveFrom hfound]
          exact hunknown

/-! ### The frame of a builder -/

namespace Builder

/-- The code of the functions around is the same, the constants and the code of the current function
have more at their end at most, no scope has fewer definitions, and the scopes around have gained
captured names at most. -/
structure Extends (before after : Builder) : Prop where
  suspended : after.suspended = before.suspended
  constants : before.constants.toList <+: after.constants.toList
  code : before.buffer.code.toList <+: after.buffer.code.toList
  definitions : before.scopes.current.definitions ≤ after.scopes.current.definitions
  outer : List.Forall₂ Scope.Gains before.scopes.outer after.scopes.outer

theorem Extends.refl (builder : Builder) : builder.Extends builder :=
  ⟨rfl, List.prefix_refl _, List.prefix_refl _, Nat.le_refl _, Scope.gainsAll_refl _⟩

theorem Extends.trans {first second third : Builder} (h : first.Extends second)
    (hnext : second.Extends third) : first.Extends third :=
  ⟨hnext.suspended.trans h.suspended, h.constants.trans hnext.constants, h.code.trans hnext.code,
    Nat.le_trans h.definitions hnext.definitions, Scope.gainsAll_trans h.outer hnext.outer⟩

theorem Extends.size_le {before after : Builder} (h : before.Extends after) :
    before.buffer.code.size ≤ after.buffer.code.size := by
  have hle := h.code.length_le
  simpa using hle

/-- A change of the buffer that keeps the code in front. -/
theorem Extends.withBuffer {before after : Builder} (h : before.Extends after) {buffer : Buffer}
    (hcode : before.buffer.code.toList <+: buffer.code.toList) :
    before.Extends { after with buffer := buffer } :=
  ⟨h.suspended, h.constants, hcode, h.definitions, h.outer⟩

end Builder

/-! ### Steps that add -/

namespace Build

/-- Whether or not the steps come to their end, all that was there stays. -/
def Grows {α : Type} (steps : Build α) : Prop :=
  ∀ builder, Ends steps builder (fun _ after ↦ builder.Extends after)
    fun _ after ↦ builder.Extends after

variable {α β : Type} {steps : Build α} {next : α → Build β}

theorem Grows.bind (h : Grows steps) (hnext : ∀ found, Grows (next found)) :
    Grows (steps >>= next) := by
  intro builder
  refine (h builder).bind fun found middle hmiddle ↦ ?_
  exact (hnext found middle).mono (fun _ _ hafter ↦ hmiddle.trans hafter)
    fun _ _ hafter ↦ hmiddle.trans hafter

theorem Grows.pure (found : α) : Grows (Pure.pure found) :=
  fun builder ↦ .refl builder

theorem Grows.throw (error : CompileError) : Grows (MonadExcept.throw error : Build α) :=
  fun builder ↦ .refl builder

theorem grows_addConstant (constant : Label → Value) : Grows (addConstant constant) :=
  fun _ ↦ ⟨rfl, by simp, List.prefix_refl _, Nat.le_refl _, Scope.gainsAll_refl _⟩

theorem grows_define (name : String) : Grows (define name) :=
  fun _ ↦ ⟨rfl, List.prefix_refl _, List.prefix_refl _, Nat.le_succ _, Scope.gainsAll_refl _⟩

theorem grows_defineFunction (name : String) : Grows (defineFunction name) :=
  fun _ ↦ ⟨rfl, List.prefix_refl _, List.prefix_refl _, Nat.le_refl _, Scope.gainsAll_refl _⟩

theorem grows_defineAll (names : List String) : Grows (defineAll names) := by
  induction names with
  | nil => exact .pure ()
  | cons name rest ih => exact (grows_define name).bind fun _ ↦ ih

theorem grows_resolve (name : String) : Grows (resolve name) := by
  intro builder
  unfold Ends resolve
  cases hname : builder.scopes.resolve name with
  | none => exact .refl builder
  | some found =>
    obtain ⟨symbol, scopes⟩ := found
    obtain ⟨hcurrent, houter⟩ := Scopes.gains_of_resolveFrom hname
    exact ⟨rfl, List.prefix_refl _, List.prefix_refl _, Nat.le_of_eq hcurrent.definitions.symm,
      houter⟩

end Build

namespace Buffer

/-- The last instruction begins at `start` or behind it. -/
def LastFrom (buffer : Buffer) (start : Nat) : Prop :=
  ∀ entry, buffer.last = some entry → start ≤ entry.position

theorem LastFrom.mono {buffer : Buffer} {start earlier : Nat} (h : buffer.LastFrom start)
    (hle : earlier ≤ start) : buffer.LastFrom earlier :=
  fun entry hentry ↦ Nat.le_trans hle (h entry hentry)

variable {before : List UInt8}

theorem prefix_overwrite {position : Nat} {bytes : List UInt8} {code : Array UInt8}
    (h : before <+: code.toList) (hposition : before.length ≤ position) :
    before <+: (overwrite position bytes code).toList := by
  induction bytes generalizing position code with
  | nil => exact h
  | cons byte rest ih =>
    refine ih ?_ (Nat.le_succ_of_le hposition)
    rw [Array.toList_setIfInBounds, List.prefix_iff_eq_take, List.take_set_of_le hposition]
    exact List.prefix_iff_eq_take.mp h

theorem prefix_dropLast {buffer : Buffer} (h : before <+: buffer.code.toList)
    (hlast : buffer.LastFrom before.length) : before <+: buffer.dropLast.code.toList := by
  unfold dropLast
  split
  · next entry hentry =>
    rw [Array.toList_shrink, List.prefix_take_iff]
    exact ⟨h, hlast entry hentry⟩
  · exact h

end Buffer

namespace Build

/-- An instruction is written behind the code, and is then the last one. -/
theorem emit_ends (opcode : Opcode) (operands : List Nat) (builder : Builder) :
    Ends (emit opcode operands) builder
      (fun position after ↦ builder.Extends after ∧ position = builder.buffer.code.size ∧
        after.buffer.LastFrom builder.buffer.code.size)
      fun _ after ↦ builder.Extends after := by
  unfold Ends emit
  cases Instruction.oversized? opcode.widths operands with
  | some operand => exact .refl builder
  | none =>
    refine ⟨(Builder.Extends.refl builder).withBuffer (by simp [Buffer.append]), rfl, ?_⟩
    rintro entry ⟨⟩
    exact Nat.le_refl _

theorem grows_emit (opcode : Opcode) (operands : List Nat) : Grows (emit opcode operands) :=
  fun builder ↦ (emit_ends opcode operands builder).mono (fun _ _ h ↦ h.1) fun _ _ h ↦ h

theorem grows_load (symbol : Symbol) : Grows (load symbol) := by
  unfold load
  cases symbol.place <;> exact (grows_emit _ _).bind fun _ ↦ .pure ()

theorem grows_loadAll (symbols : List Symbol) : Grows (loadAll symbols) := by
  induction symbols with
  | nil => exact .pure ()
  | cons symbol rest ih => exact (grows_load symbol).bind fun _ ↦ ih

/-! ### Changes at the end -/

section Changes

variable {base builder : Builder} (h : base.Extends builder)

include h

/-- A jump gets its target behind the code that was there. -/
theorem patchJump_ends {position : Nat} (hposition : base.buffer.code.size ≤ position)
    (opcode : Opcode) :
    Ends (patchJump position opcode) builder
      (fun _ after ↦ base.Extends after ∧ after.buffer.last = builder.buffer.last)
      fun _ after ↦ base.Extends after := by
  unfold Ends patchJump
  dsimp only
  cases Instruction.oversized? opcode.widths [builder.buffer.code.size] with
  | some operand => exact h
  | none => exact ⟨h.withBuffer (Buffer.prefix_overwrite h.code hposition), rfl⟩

/-- An instruction is taken back only behind the code that was there. -/
theorem keepValue_ends (hlast : builder.buffer.LastFrom base.buffer.code.size) :
    Ends keepValue builder (fun _ after ↦ base.Extends after) fun _ after ↦ base.Extends after := by
  unfold Ends keepValue
  by_cases hpop : builder.buffer.endsWith .pop
  · rw [if_pos hpop]
    exact h.withBuffer (Buffer.prefix_dropLast h.code hlast)
  · rw [if_neg hpop]
    exact h

end Changes

/-- Steps that add, with an instruction at their end. -/
def Closes (steps : Build Unit) : Prop :=
  ∀ builder, Ends steps builder
    (fun _ after ↦ builder.Extends after ∧ after.buffer.LastFrom builder.buffer.code.size)
    fun _ after ↦ builder.Extends after

theorem closes_emit (opcode : Opcode) (operands : List Nat) :
    Closes (do let _ ← emit opcode operands) := by
  intro builder
  refine (emit_ends opcode operands builder).bind fun _ middle hmiddle ↦ ?_
  exact ⟨hmiddle.1, hmiddle.2.2⟩

theorem Grows.closes {α : Type} {steps : Build α} {next : α → Build Unit} (h : Grows steps)
    (hnext : ∀ found, Closes (next found)) : Closes (steps >>= next) := by
  intro builder
  refine (h builder).bind fun found middle hmiddle ↦ ?_
  refine (hnext found middle).mono (fun _ after hafter ↦ ?_) fun _ _ hafter ↦ hmiddle.trans hafter
  exact ⟨hmiddle.trans hafter.1, hafter.2.mono hmiddle.size_le⟩

theorem Closes.grows {steps : Build Unit} (h : Closes steps) : Grows steps :=
  fun builder ↦ (h builder).mono (fun _ _ hafter ↦ hafter.1) fun _ _ hafter ↦ hafter

/-- Steps that add, behind which the last instruction is one of theirs or the one that was the last
before. -/
def Settles (steps : Build Unit) : Prop :=
  ∀ builder start, start ≤ builder.buffer.code.size → builder.buffer.LastFrom start →
    Ends steps builder (fun _ after ↦ builder.Extends after ∧ after.buffer.LastFrom start)
      fun _ after ↦ builder.Extends after

theorem Settles.grows {steps : Build Unit} (h : Settles steps) : Grows steps :=
  fun builder ↦ (h builder 0 (Nat.zero_le _) fun _ _ ↦ Nat.zero_le _).mono
    (fun _ _ hafter ↦ hafter.1) fun _ _ hafter ↦ hafter

theorem Settles.nothing : Settles (Pure.pure ()) :=
  fun builder _ _ hlast ↦ ⟨.refl builder, hlast⟩

theorem Closes.settles {steps more : Build Unit} (h : Closes steps) (hmore : Settles more) :
    Settles (do steps; more) := by
  intro builder start hstart _
  refine (h builder).bind fun _ middle ⟨hmiddle, hlast⟩ ↦ ?_
  have hrest := hmore middle start (Nat.le_trans hstart hmiddle.size_le) (hlast.mono hstart)
  refine hrest.mono (fun _ after hafter ↦ ?_) fun _ _ hafter ↦ hmiddle.trans hafter
  exact ⟨hmiddle.trans hafter.1, hafter.2⟩

/-- Statements whose last value is kept, behind code that stays. -/
theorem Settles.keepValue {base builder : Builder} {steps : Build Unit} (h : Settles steps)
    (hbase : base.Extends builder) (hlast : builder.buffer.LastFrom base.buffer.code.size) :
    Ends (do steps; keepValue) builder (fun _ after ↦ base.Extends after)
      fun _ after ↦ base.Extends after := by
  refine ((h builder _ hbase.size_le hlast).mono (fun _ _ hafter ↦ hafter)
    fun _ _ hafter ↦ hbase.trans hafter).bind fun _ middle ⟨hmiddle, hmore⟩ ↦ ?_
  exact keepValue_ends (hbase.trans hmiddle) hmore

theorem consequence_ends {test : Build Unit} {block : List Stmt} (htest : Grows test)
    (hblock : Settles (Stmt.generateAll block)) (base : Builder) :
    Ends (Build.consequence test block) base
      (fun finish after ↦ base.Extends after ∧ base.buffer.code.size ≤ finish ∧
        after.buffer.LastFrom base.buffer.code.size)
      fun _ after ↦ base.Extends after := by
  unfold Build.consequence
  refine (htest base).bind fun _ tested htested ↦ ?_
  refine ((emit_ends _ _ tested).mono (fun _ _ h ↦ h) fun _ _ h ↦ htested.trans h).bind
    fun pass jumped ⟨hjumped, hpass, hlast⟩ ↦ ?_
  have hsize := htested.size_le
  rw [← bind_assoc]
  refine (hblock.keepValue (htested.trans hjumped) (hlast.mono hsize)).bind fun _ kept hkept ↦ ?_
  refine ((emit_ends _ _ kept).mono (fun _ _ h ↦ h) fun _ _ h ↦ hkept.trans h).bind
    fun finish left ⟨hleft, hfinish, hend⟩ ↦ ?_
  have hpatch := patchJump_ends (hkept.trans hleft) (hpass ▸ hsize) .jumpNotTruthy
  refine hpatch.bind fun _ patched ⟨hpatched, hsame⟩ ↦ .pure ⟨hpatched, ?_, ?_⟩
  · rw [hfinish]
    exact hkept.size_le
  · intro entry hentry
    rw [hsame] at hentry
    exact Nat.le_trans hkept.size_le (hend entry hentry)

theorem otherwise_ends {base builder : Builder} {alternative : Option (List Stmt)}
    (hblock : ∀ block, alternative = some block → Settles (Stmt.generateAll block))
    (hbase : base.Extends builder) (hlast : builder.buffer.LastFrom base.buffer.code.size) :
    Ends (Stmt.generateOtherwise alternative) builder (fun _ after ↦ base.Extends after)
      fun _ after ↦ base.Extends after := by
  cases alternative with
  | some block => exact (hblock block rfl).keepValue hbase hlast
  | none =>
    exact ((closes_emit .null []).grows builder).mono (fun _ _ hafter ↦ hbase.trans hafter)
      fun _ _ hafter ↦ hbase.trans hafter

theorem grows_branch {condition : Expr} {consequence : List Stmt}
    {alternative : Option (List Stmt)} (htest : Grows condition.generate)
    (hfirst : Settles (Stmt.generateAll consequence))
    (hsecond : ∀ block, alternative = some block → Settles (Stmt.generateAll block)) :
    Grows (Expr.branch condition consequence alternative).generate := by
  intro base
  rw [Expr.generate_branch]
  refine (consequence_ends htest hfirst base).bind fun finish middle ⟨hmiddle, hfinish, hlast⟩ ↦ ?_
  refine (otherwise_ends hsecond hmiddle hlast).bind fun _ last hlast ↦ ?_
  have hpatch := patchJump_ends hlast hfinish .jump
  exact hpatch.mono (fun _ _ hafter ↦ hafter.1) fun _ _ hafter ↦ hafter

/-! ### Functions -/

/-- Behind a function the builder is back where it was, but for the constants and for what the
function took from around it. -/
theorem extends_leave {builder inner : Builder} (h : builder.enter.Extends inner) :
    builder.Extends inner.leave.2 := by
  obtain ⟨hsuspended, hconstants, -, -, houter⟩ := h
  obtain ⟨constants, ⟨current, outer⟩, buffer, suspended⟩ := inner
  cases hsuspended
  cases houter with
  | cons hcurrent hrest =>
    exact ⟨rfl, hconstants, List.prefix_refl _, Nat.le_of_eq hcurrent.definitions.symm, hrest⟩

theorem grows_inFunction {body : Build Unit}
    (h : ∀ builder, builder.buffer.code = #[] → Ends body builder
      (fun _ after ↦ builder.Extends after) fun _ after ↦ builder.Extends after) :
    Grows (inFunction body) := by
  intro builder
  have hbody := h builder.enter rfl
  unfold Ends inFunction
  cases hinner : body builder.enter with
  | ok _ inner => exact extends_leave (hbody.at_ok hinner)
  | error _ inner => exact extends_leave (hbody.at_error hinner)

/-- The ending of a body changes nothing but the code of the body. -/
theorem endBody_ends {base builder : Builder} (hempty : base.buffer.code = #[])
    (h : base.Extends builder) :
    Ends endBody builder (fun _ after ↦ base.Extends after) fun _ after ↦ base.Extends after := by
  have hfront : ∀ code : Array UInt8, base.buffer.code.toList <+: code.toList :=
    fun code ↦ by rw [hempty]; exact List.nil_prefix
  have hmodified : base.Extends (if builder.buffer.endsWith .pop then
      { builder with buffer := builder.buffer.replaceLast .returnValue } else builder) := by
    split
    · exact h.withBuffer (hfront _)
    · exact h
  have hrest : ∀ middle : Builder, base.Extends middle →
      Ends (if !middle.buffer.endsWith .returnValue then (do let _ ← emit .ret []) else pure ())
        middle (fun _ after ↦ base.Extends after) fun _ after ↦ base.Extends after := by
    intro middle hmiddle
    split
    · exact ((closes_emit .ret []).grows middle).mono (fun _ _ hlast ↦ hmiddle.trans hlast)
        fun _ _ hlast ↦ hmiddle.trans hlast
    · exact hmiddle
  exact hrest _ hmodified

theorem grows_functionBody {body : Build Unit} (hbody : Grows body) (name : Option String)
    (parameters : List String) :
    Grows (inFunction do
      match name with
      | some name => defineFunction name
      | none => pure ()
      defineAll parameters
      body
      endBody) := by
  refine grows_inFunction fun builder hempty ↦ ?_
  have hdefined : ∀ middle, builder.Extends middle →
      Ends (do defineAll parameters; body; endBody) middle (fun _ after ↦ builder.Extends after)
        fun _ after ↦ builder.Extends after := by
    intro middle hmiddle
    refine ((grows_defineAll parameters middle).mono (fun _ _ h ↦ hmiddle.trans h)
      fun _ _ h ↦ hmiddle.trans h).bind fun _ defined hdefined ↦ ?_
    refine ((hbody defined).mono (fun _ _ h ↦ hdefined.trans h) fun _ _ h ↦ hdefined.trans h).bind
      fun _ written hwritten ↦ ?_
    exact endBody_ends hempty hwritten
  cases name with
  | none => exact hdefined builder (.refl builder)
  | some name =>
    exact (grows_defineFunction name builder).bind fun _ middle hmiddle ↦ hdefined middle hmiddle

end Build

/-! ### Programs -/

mutual

theorem Expr.grows : (expr : Expr) → Build.Grows expr.generate
  | .int value => by
    rw [Expr.generate]
    exact (Build.grows_addConstant _).bind fun entry ↦ (Build.closes_emit _ _).grows
  | .str content => by
    rw [Expr.generate]
    exact (Build.grows_addConstant _).bind fun entry ↦ (Build.closes_emit _ _).grows
  | .bool value => by
    rw [Expr.generate]
    exact (Build.closes_emit _ _).grows
  | .ident name => by
    rw [Expr.generate]
    exact (Build.grows_resolve name).bind Build.grows_load
  | .unary op operand => by
    rw [Expr.generate]
    refine operand.grows.bind fun _ ↦ ?_
    split
    · exact (Build.closes_emit _ _).grows
    · exact .throw _
  | .binary op left right => by
    rw [Expr.generate]
    split
    · exact right.grows.bind fun _ ↦ left.grows.bind fun _ ↦ (Build.closes_emit _ _).grows
    · refine left.grows.bind fun _ ↦ right.grows.bind fun _ ↦ ?_
      split
      · exact (Build.closes_emit _ _).grows
      · exact .throw _
  | .branch condition consequence none =>
    Build.grows_branch condition.grows (Stmt.settlesAll consequence) nofun
  | .branch condition consequence (some block) => by
    refine Build.grows_branch condition.grows (Stmt.settlesAll consequence) ?_
    rintro _ ⟨⟩
    exact Stmt.settlesAll block
  | .function parameters body name => by
    rw [Expr.generate]
    have hbody := Build.grows_functionBody (Stmt.settlesAll body).grows name parameters
    refine hbody.bind fun left ↦ ?_
    refine (Build.grows_loadAll _).bind fun _ ↦ (Build.grows_addConstant _).bind fun entry ↦ ?_
    exact (Build.closes_emit _ _).grows
  | .call callee arguments => by
    rw [Expr.generate]
    refine callee.grows.bind fun _ ↦ (Expr.growsAll arguments).bind fun _ ↦ ?_
    exact (Build.closes_emit _ _).grows
  | .array elements => by
    rw [Expr.generate]
    exact (Expr.growsAll elements).bind fun _ ↦ (Build.closes_emit _ _).grows
  | .hash pairs => by
    rw [Expr.generate]
    exact (Expr.growsPairs pairs).bind fun _ ↦ (Build.closes_emit _ _).grows
  | .index collection position => by
    rw [Expr.generate]
    refine collection.grows.bind fun _ ↦ position.grows.bind fun _ ↦ ?_
    exact (Build.closes_emit _ _).grows

theorem Stmt.closes : (stmt : Stmt) → Build.Closes stmt.generate
  | .eval expr => by
    rw [Stmt.generate]
    exact expr.grows.closes fun _ ↦ Build.closes_emit _ _
  | .bind name value => by
    rw [Stmt.generate]
    refine (Build.grows_define name).closes fun symbol ↦ ?_
    exact value.grows.closes fun _ ↦ Build.closes_emit _ _
  | .ret value => by
    rw [Stmt.generate]
    exact value.grows.closes fun _ ↦ Build.closes_emit _ _

theorem Stmt.settlesAll : (stmts : List Stmt) → Build.Settles (Stmt.generateAll stmts)
  | [] => .nothing
  | stmt :: rest => stmt.closes.settles (Stmt.settlesAll rest)

theorem Expr.growsAll : (exprs : List Expr) → Build.Grows (Expr.generateAll exprs)
  | [] => .pure ()
  | expr :: rest => expr.grows.bind fun _ ↦ Expr.growsAll rest

theorem Expr.growsPairs : (pairs : List (Expr × Expr)) → Build.Grows (Expr.generatePairs pairs)
  | [] => .pure ()
  | (key, value) :: rest =>
    key.grows.bind fun _ ↦ value.grows.bind fun _ ↦ Expr.growsPairs rest

end

namespace Builder

/-- The builders that come of a new one. -/
inductive Reachable : Builder → Prop
  | new : Reachable new
  | enter {builder : Builder} (h : Reachable builder) : Reachable builder.enter
  | leave {builder : Builder} (h : Reachable builder) : Reachable builder.leave.2
  | add {builder : Builder} (h : Reachable builder) (program : Program) :
    Reachable (builder.add program).2

theorem extends_add (builder : Builder) (program : Program) :
    builder.Extends (builder.add program).2 := by
  have hgrows := (Stmt.settlesAll program.statements).grows builder
  unfold add
  cases hadded : Stmt.generateAll program.statements builder with
  | ok _ after => exact hgrows.at_ok hadded
  | error _ after => exact hgrows.at_error hadded

theorem Extends.depth {before after : Builder} (h : before.Extends after) :
    after.depth = before.depth ∧ after.scopes.depth = before.scopes.depth :=
  ⟨congrArg List.length h.suspended, h.outer.length_eq.symm⟩

/-- There is a scope for each function that is open, and one for the program. -/
theorem Reachable.depth {builder : Builder} (h : builder.Reachable) :
    builder.depth = builder.scopes.depth := by
  induction h with
  | new => rfl
  | enter _ ih => exact congrArg (· + 1) ih
  | @leave builder _ ih =>
    obtain ⟨constants, ⟨current, outer⟩, buffer, suspended⟩ := builder
    change suspended.length = outer.length at ih
    change suspended.tail.length = (Option.getD (Scopes.leave? ⟨current, outer⟩) {}).depth
    rw [List.length_tail, ih]
    cases outer <;> rfl
  | @add builder _ program ih =>
    obtain ⟨hdepth, hscopes⟩ := (builder.extends_add program).depth
    rw [hdepth, hscopes, ih]

/-- Spec §4.2, compilation scopes. Assumes: the builder is reachable (`h`). Compiling a program,
whether or not it fails, leaves the nesting as it was, one scope for each open function, and only
adds: to the code of the current function, to the constants and to the definitions of the current
scope. The code of the functions around is untouched, and the scopes around gain captured names at
most. -/
theorem Reachable.add_extends {builder : Builder} (h : builder.Reachable) (program : Program) :
    (builder.add program).2.depth = builder.depth ∧
    (builder.add program).2.scopes.depth = builder.scopes.depth ∧
    builder.depth = builder.scopes.depth ∧
    builder.Extends (builder.add program).2 := by
  obtain ⟨hdepth, hscopes⟩ := (builder.extends_add program).depth
  exact ⟨hdepth, hscopes, h.depth, builder.extends_add program⟩

/-- The text `if (true) { fn() { 1; missing } }`. -/
def unbound : Program :=
  ⟨[.eval (.branch (.bool true)
    [.eval (.function [] [.eval (.int 1), .eval (.ident "missing")] none)] none)]⟩

theorem Reachable.add_extends_unbound :
    Builder.new.enter.Reachable ∧
    (Builder.new.enter.add unbound).1 = some (.undefinedVariable "missing") ∧
    (Builder.new.enter.add unbound).2.depth = Builder.new.enter.depth ∧
    (Builder.new.enter.add unbound).2.scopes.depth = Builder.new.enter.scopes.depth ∧
    Builder.new.enter.depth = Builder.new.enter.scopes.depth ∧
    Builder.new.enter.Extends (Builder.new.enter.add unbound).2 := by
  have hreachable : Builder.new.enter.Reachable := .enter .new
  exact ⟨hreachable, rfl, hreachable.add_extends unbound⟩

end Builder

end StackScript
