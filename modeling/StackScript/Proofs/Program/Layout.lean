import StackScript.Program.Evaluate
import StackScript.Proofs.Bytecode.Editing
import StackScript.Proofs.Bytecode.WellFormed
import StackScript.Proofs.Program.Tracking

/-!
The code of a part of a program, told from the text. A part is laid out at an offset if its code
consists of the code of its parts in the order in which they are evaluated, with instructions that
load what the names denote (`Expr.Laid`). All code that is assembled is laid out for its text, with
the constants and the captures at the end (`Expr.laid_of_assemble`).
-/

set_option autoImplicit false
set_option relaxedAutoImplicit false

namespace StackScript

open Instruction (size encodeAll)

/-! ### Growing names -/

structure Names.Grown (before after : Names) : Prop where
  slots : before.slots ≤ after.slots
  captures : before.captures <+: after.captures

theorem Names.Grown.refl (names : Names) : names.Grown names :=
  ⟨Nat.le_refl _, List.prefix_rfl⟩

theorem Names.Grown.trans {first second third : Names} (h : first.Grown second)
    (hnext : second.Grown third) : first.Grown third :=
  ⟨Nat.le_trans h.slots hnext.slots, h.captures.trans hnext.captures⟩

theorem Names.grown_note (depth : Nat) (use : Use) (names : Names) :
    names.Grown (names.note depth use) :=
  ⟨Nat.le_of_eq (names.slots_note depth use).symm, names.captures_note depth use⟩

namespace Context

/-- Slots and captures are added behind those there were. -/
structure Grown (before after : Context) : Prop where
  names : before.names.Grown after.names
  outer : List.Forall₂ Names.Grown before.outer after.outer

theorem Grown.refl (context : Context) : context.Grown context :=
  ⟨.refl _, List.forall₂_same.mpr fun names _ ↦ .refl names⟩

theorem Grown.trans {first second third : Context} (h : first.Grown second)
    (hnext : second.Grown third) : first.Grown third := by
  refine ⟨h.names.trans hnext.names, ?_⟩
  refine List.forall₂_iff_get.mpr ⟨h.outer.length_eq.trans hnext.outer.length_eq, ?_⟩
  intro i hfirst hthird
  have hsecond : i < second.outer.length := h.outer.length_eq ▸ hfirst
  exact ((List.forall₂_iff_get.mp h.outer).2 i hfirst hsecond).trans
    ((List.forall₂_iff_get.mp hnext.outer).2 i hsecond hthird)

theorem Grown.depth_eq {before after : Context} (h : before.Grown after) :
    after.depth = before.depth :=
  h.outer.length_eq.symm

theorem grown_noteIn (use : Use) (chain : List Names) :
    List.Forall₂ Names.Grown chain (noteIn use chain) := by
  induction chain with
  | nil => exact .nil
  | cons names outer ih => exact .cons (names.grown_note _ use) ih

theorem grown_use (context : Context) (use : Use) : context.Grown (context.use use) :=
  ⟨context.names.grown_note _ use, grown_noteIn use context.outer⟩

theorem grown_define (context : Context) (name : String) :
    context.Grown (context.define name).2 :=
  ⟨⟨Nat.le_succ _, List.prefix_rfl⟩, (Grown.refl context).outer⟩

theorem grown_countLiteral (context : Context) : context.Grown context.countLiteral :=
  ⟨.refl _, (Grown.refl context).outer⟩

/-- A function begins one level further inside, with a slot for each parameter. -/
theorem outer_enter (context : Context) (name : Option String) (parameters : List String) :
    (context.enter name parameters).outer = context.names :: context.outer ∧
      (context.enter name parameters).names.slots = parameters.length ∧
      (context.enter name parameters).literals = context.literals := by
  have hparameters : ∀ (parameters : List String) (inner : Context),
      let after := parameters.foldl (fun context parameter ↦ (context.define parameter).2) inner
      after.outer = inner.outer ∧ after.names.slots = inner.names.slots + parameters.length ∧
        after.literals = inner.literals := by
    intro parameters
    induction parameters with
    | nil => exact fun inner ↦ ⟨rfl, rfl, rfl⟩
    | cons parameter rest ih =>
      intro inner
      obtain ⟨houter, hslots, hliterals⟩ := ih (inner.define parameter).2
      refine ⟨houter, hslots.trans ?_, hliterals⟩
      simp only [define, List.length_cons]
      omega
  unfold enter
  cases name with
  | none =>
    obtain ⟨houter, hslots, hliterals⟩ := hparameters parameters
      { context with names := {}, outer := context.names :: context.outer }
    exact ⟨houter, hslots.trans (Nat.zero_add _), hliterals⟩
  | some name =>
    obtain ⟨houter, hslots, hliterals⟩ := hparameters parameters
      { context with
        names := ({} : Names).bind name (.self (context.outer.length + 1))
        outer := context.names :: context.outer }
    exact ⟨houter, hslots.trans (Nat.zero_add _), hliterals⟩

theorem Grown.leave {context inner : Context} {name : Option String} {parameters : List String}
    (h : (context.enter name parameters).Grown inner) :
    context.Grown inner.leave ∧ inner.outer ≠ [] := by
  have houter := h.outer
  rw [(context.outer_enter name parameters).1] at houter
  obtain ⟨around, outer, haround, hrest, hinner⟩ := List.forall₂_cons_left_iff.mp houter
  refine ⟨?_, by simp [hinner]⟩
  simp only [Context.leave, hinner, List.head?_cons, Option.getD_some, List.tail_cons]
  exact ⟨haround, hrest⟩

end Context

/-! ### Code of parts -/

/-- What the code of a function is laid out for. -/
structure Plan where
  constants : Array Value
  /-- So many functions are around it. -/
  depth : Nat := 0
  captures : List Use := []
  /-- How many slots the function has. -/
  slots : Nat := 0

/-- The instruction that loads a variable. -/
inductive Plan.Loads (plan : Plan) : Use → Instruction → Prop
  | global (name : String) (slot : Nat) :
    Loads plan ⟨name, .global slot⟩ ⟨.getGlobal, [slot]⟩
  | builtin (name : String) (builtin : Builtin) :
    Loads plan ⟨name, .builtin builtin⟩ ⟨.getBuiltin, [builtin.index]⟩
  | slot (name : String) {slot : Nat} (hslot : slot < plan.slots) :
    Loads plan ⟨name, .slot plan.depth slot⟩ ⟨.getLocal, [slot]⟩
  | self (name : String) (hdepth : 0 < plan.depth) :
    Loads plan ⟨name, .self plan.depth⟩ ⟨.currentClosure, []⟩
  | captured {use : Use} {index : Nat} (houter : use.meaning.isOuter plan.depth)
    (hindex : plan.captures[index]? = some use) :
    Loads plan use ⟨.getFree, [index]⟩

/-- The instruction that gives a new variable its value. -/
inductive Plan.Stores (plan : Plan) : Variable → Instruction → Prop
  | global (slot : Nat) : Stores plan (.global slot) ⟨.setGlobal, [slot]⟩
  | slot {slot : Nat} (hslot : slot < plan.slots) :
    Stores plan (.slot plan.depth slot) ⟨.setLocal, [slot]⟩

namespace Function

def plan (constants : Array Value) (function : Function) : Plan :=
  ⟨constants, function.context.depth, function.captures, function.slots⟩

/-- What stands behind the code of a body: the value of a last expression is given back, and null if
there is nothing else that returns. -/
def closing (body : List Stmt) : List Instruction :=
  if Stmt.yields body then [⟨.returnValue, []⟩]
  else if Stmt.returns body then [] else [⟨.ret, []⟩]

def routine (function : Function) (inner : List Instruction) : Routine :=
  ⟨(encodeAll (inner ++ closing function.body)).toArray, function.slots,
    function.parameters.length⟩

/-- The code is fit to be the body of the function. -/
structure Accepts (function : Function) (inner : List Instruction) : Prop where
  fits : ∀ instruction ∈ inner ++ closing function.body, instruction.Fits
  parameters : function.parameters.length ≤ function.slots
  nodup : function.captures.Nodup

end Function

/-- The parts of a branch with the jumps over the part that is not taken. -/
def Expr.branchCode (start : Nat) (test first second : List Instruction) : List Instruction :=
  let otherwise := start + size test + 3 + size first + 3
  test ++ [⟨.jumpNotTruthy, [otherwise]⟩] ++ first ++ [⟨.jump, [otherwise + size second]⟩] ++ second

theorem Expr.size_branchCode {start : Nat} {test first second : List Instruction} :
    start + size (branchCode start test first second) =
      start + size test + 3 + size first + 3 + size second := by
  have hjumps : ∀ (opcode : Opcode) (target : Nat), opcode.byteLength = 3 →
      size [⟨opcode, [target]⟩] = 3 := fun opcode target hlength ↦ hlength
  unfold branchCode
  simp only [Instruction.size_append, hjumps .jumpNotTruthy _ rfl, hjumps .jump _ rfl]
  omega

mutual

/-- The code of an expression from the offset on. -/
def Expr.Laid : Expr → Plan → Context → Nat → List Instruction → Prop
  | .int value, plan, context, _, code =>
    plan.constants[context.literals]? = some (.integer value) ∧
      code = [⟨.constant, [context.literals]⟩]
  | .str content, plan, context, _, code =>
    plan.constants[context.literals]? =
      some (.string (.literal context.literals) content) ∧
      code = [⟨.constant, [context.literals]⟩]
  | .bool value, _, _, _, code => code = [⟨if value then .true else .false, []⟩]
  | .ident name, plan, context, _, code =>
    ∃ meaning instruction, context.find? name = some meaning ∧
      plan.Loads ⟨name, meaning⟩ instruction ∧ code = [instruction]
  | .unary op operand, plan, context, start, code =>
    ∃ opcode inner, Opcode.ofPrefix? op = some opcode ∧ operand.Laid plan context start inner ∧
      code = inner ++ [⟨opcode, []⟩]
  | .binary op left right, plan, context, start, code =>
    if op = "<" then
      ∃ second first, right.Laid plan context start second ∧
        left.Laid plan (right.after context) (start + size second) first ∧
        code = second ++ first ++ [⟨.greaterThan, []⟩]
    else
      ∃ opcode first second, Opcode.ofInfix? op = some opcode ∧
        left.Laid plan context start first ∧
        right.Laid plan (left.after context) (start + size first) second ∧
        code = first ++ second ++ [⟨opcode, []⟩]
  | .branch condition consequence (some alternative), plan, context, start, code =>
    ∃ test first second, condition.Laid plan context start test ∧
      Stmt.LaidAll consequence plan (condition.after context) (start + size test + 3) first ∧
      Stmt.LaidAll alternative plan (Stmt.afterAll consequence (condition.after context))
        (start + size test + 3 + size first + 3) second ∧
      code = Expr.branchCode start test first second
  | .branch condition consequence none, plan, context, start, code =>
    ∃ test first, condition.Laid plan context start test ∧
      Stmt.LaidAll consequence plan (condition.after context) (start + size test + 3) first ∧
      code = Expr.branchCode start test first [⟨.null, []⟩]
  | .function parameters body name, plan, context, _, code =>
    let function : Function := ⟨parameters, body, context.enter name parameters⟩
    let entry := (Stmt.afterAll body function.context).literals
    ∃ inner loads label, Stmt.LaidAll body (function.plan plan.constants) function.context 0 inner ∧
      function.Accepts inner ∧ List.Forall₂ plan.Loads function.captures loads ∧
      plan.constants[entry]? = some (.routine label (function.routine inner)) ∧
      code = loads ++ [⟨.closure, [entry, function.captures.length]⟩]
  | .call callee arguments, plan, context, start, code =>
    ∃ first others, callee.Laid plan context start first ∧
      Expr.LaidAll arguments plan (callee.after context) (start + size first) others ∧
      code = first ++ others ++ [⟨.call, [arguments.length]⟩]
  | .array elements, plan, context, start, code =>
    ∃ inner, Expr.LaidAll elements plan context start inner ∧
      code = inner ++ [⟨.array, [elements.length]⟩]
  | .hash pairs, plan, context, start, code =>
    ∃ inner, Expr.LaidPairs pairs plan context start inner ∧
      code = inner ++ [⟨.hash, [2 * pairs.length]⟩]
  | .index collection position, plan, context, start, code =>
    ∃ first second, collection.Laid plan context start first ∧
      position.Laid plan (collection.after context) (start + size first) second ∧
      code = first ++ second ++ [⟨.index, []⟩]

/-- The code of a statement. The value of an expression is kept at the end and else discarded. -/
def Stmt.Laid : Stmt → Bool → Plan → Context → Nat → List Instruction → Prop
  | .eval expr, atEnd, plan, context, start, code =>
    ∃ inner, expr.Laid plan context start inner ∧
      code = inner ++ if atEnd then [] else [⟨.pop, []⟩]
  | .bind name value, _, plan, context, start, code =>
    ∃ inner instruction, value.Laid plan (context.define name).2 start inner ∧
      plan.Stores (context.define name).1 instruction ∧ code = inner ++ [instruction]
  | .ret value, _, plan, context, start, code =>
    ∃ inner, value.Laid plan context start inner ∧ code = inner ++ [⟨.returnValue, []⟩]

def Stmt.LaidAll : List Stmt → Plan → Context → Nat → List Instruction → Prop
  | [], _, _, _, code => code = []
  | stmt :: rest, plan, context, start, code =>
    ∃ first others, stmt.Laid rest.isEmpty plan context start first ∧
      Stmt.LaidAll rest plan (stmt.after context) (start + size first) others ∧
      code = first ++ others

def Expr.LaidAll : List Expr → Plan → Context → Nat → List Instruction → Prop
  | [], _, _, _, code => code = []
  | expr :: rest, plan, context, start, code =>
    ∃ first others, expr.Laid plan context start first ∧
      Expr.LaidAll rest plan (expr.after context) (start + size first) others ∧
      code = first ++ others

def Expr.LaidPairs : List (Expr × Expr) → Plan → Context → Nat → List Instruction → Prop
  | [], _, _, _, code => code = []
  | (key, value) :: rest, plan, context, start, code =>
    ∃ first second others, key.Laid plan context start first ∧
      value.Laid plan (key.after context) (start + size first) second ∧
      Expr.LaidPairs rest plan (value.after (key.after context))
        (start + size first + size second) others ∧
      code = first ++ second ++ others

end

/-! ### Branches that yield values -/

mutual

/-- Whether each block of every `if`, however deep inside, ends with an expression or a `return`. -/
def Expr.branched : Expr → Bool
  | .ident _ | .int _ | .str _ | .bool _ => true
  | .unary _ operand => operand.branched
  | .binary _ left right => left.branched && right.branched
  | .branch condition consequence (some alternative) =>
    condition.branched && (Stmt.returns consequence && Stmt.branchedAll consequence) &&
      (Stmt.returns alternative && Stmt.branchedAll alternative)
  | .branch condition consequence none =>
    condition.branched && (Stmt.returns consequence && Stmt.branchedAll consequence)
  | .function _ body _ => Stmt.branchedAll body
  | .call callee arguments => callee.branched && Expr.branchedAll arguments
  | .array elements => Expr.branchedAll elements
  | .hash pairs => Expr.branchedPairs pairs
  | .index collection position => collection.branched && position.branched

def Stmt.branched : Stmt → Bool
  | .bind _ value | .ret value => value.branched
  | .eval expr => expr.branched

def Stmt.branchedAll : List Stmt → Bool
  | [] => true
  | stmt :: rest => stmt.branched && Stmt.branchedAll rest

def Expr.branchedAll : List Expr → Bool
  | [] => true
  | expr :: rest => expr.branched && Expr.branchedAll rest

def Expr.branchedPairs : List (Expr × Expr) → Bool
  | [] => true
  | (key, value) :: rest => key.branched && value.branched && Expr.branchedPairs rest

end

/-- The routine is the compiled body of the function, which captures so many values; and branches
inside yield values. -/
structure Function.Compiled (constants : Array Value) (function : Function) (routine : Routine)
    (count : Nat) : Prop where
  branched : Stmt.branchedAll function.body
  captures : function.captures.length = count
  laid : ∃ inner, Stmt.LaidAll function.body (function.plan constants) function.context 0 inner ∧
    function.Accepts inner ∧ routine = function.routine inner

/-! ### Drafts at a place -/

/-- The draft is the one at the place. -/
structure Draft.Follows (draft : Draft) (context : Context) : Prop where
  sound : draft.Sound
  scopes : draft.scopes.At context
  literals : draft.constants.size = context.literals

/-- There is all in the plan that there is at the place. -/
structure Plan.Covers (plan : Plan) (draft : Draft) (context : Context) : Prop where
  constants : Extends draft.constants plan.constants
  depth : plan.depth = context.depth
  captures : context.names.captures <+: plan.captures
  slots : 0 < plan.depth → context.names.slots ≤ plan.slots

theorem Plan.Covers.mono {plan : Plan} {draft after : Draft} {context inner : Context}
    (h : plan.Covers after inner) (hdraft : draft.Grown after) (hcontext : context.Grown inner) :
    plan.Covers draft context :=
  ⟨hdraft.constants.trans h.constants, h.depth.trans hcontext.depth_eq,
    hcontext.names.captures.trans h.captures,
    fun hdepth ↦ Nat.le_trans hcontext.names.slots (h.slots hdepth)⟩

theorem Draft.Follows.loads {draft : Draft} {context : Context} (h : draft.Follows context)
    {plan : Plan} (hplan : plan.Covers draft context) {symbol : Symbol} {meaning : Variable}
    (hdenotes : symbol.Denotes context.depth context.names.captures meaning)
    (hwithin : symbol.Within draft.scopes.limits) :
    plan.Loads ⟨symbol.name, meaning⟩ symbol.loading := by
  have hempty := Tracks.isEmpty h.scopes
  have hdepth : draft.scopes.outer ≠ [] → 0 < plan.depth := by
    intro houter
    rw [hplan.depth]
    refine List.length_pos_iff.mpr fun hnil ↦ houter ?_
    rw [hnil] at hempty
    simpa using hempty
  unfold Symbol.Denotes at hdenotes
  unfold Symbol.Within Scopes.limits Scope.limits at hwithin
  split at hdenotes
  · next hplace =>
    subst hdenotes
    simp only [Symbol.loading, hplace]
    exact .global _ _
  · next hplace =>
    obtain ⟨builtin, rfl, hindex⟩ := hdenotes
    simp only [Symbol.loading, hplace, hindex]
    exact .builtin _ _
  · next hplace =>
    subst hdenotes
    rw [hplace] at hwithin
    simp only [Symbol.loading, hplace, ← hplan.depth]
    refine .slot _ ?_
    cases houter : draft.scopes.outer with
    | nil => simp [houter] at hwithin
    | cons around outer =>
      simp only [houter, Tracks.slots h.scopes] at hwithin
      exact Nat.lt_of_lt_of_le hwithin (hplan.slots (hdepth (by simp [houter])))
  · next hplace =>
    subst hdenotes
    rw [hplace] at hwithin
    simp only [Symbol.loading, hplace, ← hplan.depth]
    refine .self _ (hdepth fun houter ↦ ?_)
    simp [houter] at hwithin
  · next hplace =>
    simp only [Symbol.loading, hplace]
    refine .captured ?_ ?_
    · rw [hplan.depth]
      exact Tracks.isOuter h.scopes _ (List.mem_of_getElem? hdenotes)
    · obtain ⟨rest, hrest⟩ := hplan.captures
      rw [← hrest, List.getElem?_append_left (List.getElem?_eq_some_iff.mp hdenotes).1]
      exact hdenotes

namespace Assembly

variable {α β : Type}

theorem load_eq (symbol : Symbol) :
    load symbol = instruction symbol.loading.opcode symbol.loading.operands := by
  unfold load Symbol.loading
  cases symbol.place <;> rfl

/-- From a draft at one place the assembly leads to one at the other, and what it yields has the
property for all plans in which there is what there is then. -/
def Lays (assembly : Assembly α) (draft : Draft) (before after : Context)
    (property : α → Plan → Prop) : Prop :=
  draft.Follows before → ∀ yielded last, assembly draft = .ok yielded last →
    last.Follows after ∧ draft.Grown last ∧ before.Grown after ∧
      ∀ plan : Plan, plan.Covers last after → property yielded plan

variable {draft : Draft} {before middle after : Context} {property : α → Plan → Prop}
  {further : β → Plan → Prop}

theorem Lays.bind {assembly : Assembly α} {next : α → Assembly β}
    (h : Lays assembly draft before middle property)
    (hnext : ∀ yielded last, Lays (next yielded) last middle after fun other plan ↦
      property yielded plan → further other plan) :
    Lays (assembly >>= next) draft before after further := by
  intro hfollows other last hassembly
  obtain ⟨yielded, between, hfirst, hsecond⟩ := bind_eq_ok_iff.mp hassembly
  obtain ⟨hbetween, hgrown, hcontext, hproperty⟩ := h hfollows yielded between hfirst
  obtain ⟨hlast, hmore, hinner, hfurther⟩ := hnext yielded between hbetween other last hsecond
  exact ⟨hlast, hgrown.trans hmore, hcontext.trans hinner,
    fun plan hplan ↦ hfurther plan hplan (hproperty plan (hplan.mono hmore hinner))⟩

theorem Lays.pure {yielded : α} (h : ∀ plan, property yielded plan) :
    Lays (Pure.pure yielded) draft before before property := by
  rintro hfollows _ _ ⟨⟩
  exact ⟨hfollows, .refl _, .refl _, fun plan _ ↦ h plan⟩

theorem Lays.throw (error : CompileError) :
    Lays (MonadExcept.throw error) draft before after property := by
  rintro _ _ _ ⟨⟩

theorem Lays.mono {assembly : Assembly α} {weaker : α → Plan → Prop}
    (h : Lays assembly draft before after property)
    (hweaker : ∀ yielded plan, property yielded plan → weaker yielded plan) :
    Lays assembly draft before after weaker := by
  intro hfollows yielded last hassembly
  obtain ⟨hlast, hgrown, hcontext, hproperty⟩ := h hfollows yielded last hassembly
  exact ⟨hlast, hgrown, hcontext, fun plan hplan ↦ hweaker yielded plan (hproperty plan hplan)⟩

theorem eq_of_instruction_ok {opcode : Opcode} {operands : List Nat} {code : List Instruction}
    {last : Draft} (h : instruction opcode operands draft = .ok code last) :
    code = [⟨opcode, operands⟩] ∧ draft = last := by
  unfold instruction at h
  split at h
  · cases h
  · cases h
    exact ⟨rfl, rfl⟩

theorem lays_instruction (opcode : Opcode) (operands : List Nat) :
    Lays (instruction opcode operands) draft before before fun code _ ↦
      code = [⟨opcode, operands⟩] := by
  intro hfollows yielded last h
  obtain ⟨hcode, rfl⟩ := eq_of_instruction_ok h
  exact ⟨hfollows, .refl _, .refl _, fun _ _ ↦ hcode⟩

theorem lays_instruction_after (code : List Instruction) (opcode : Opcode) (operands : List Nat) :
    Lays (do return code ++ (← instruction opcode operands)) draft before before fun whole _ ↦
      whole = code ++ [⟨opcode, operands⟩] := by
  refine (lays_instruction opcode operands).bind fun yielded last ↦ .pure ?_
  rintro _ rfl
  rfl

theorem lays_addConstant (constant : Label → Value)
    (h : ∀ label, (constant label).ValidConstant draft.constants draft.scopes.limits.globals) :
    Lays (addConstant constant) draft before before.countLiteral fun entry plan ↦
      entry = before.literals ∧ plan.constants[entry]? = some (constant (.literal entry)) := by
  rintro hfollows _ _ ⟨⟩
  have hgrown : draft.Grown { draft with
      constants := draft.constants.push (constant (.literal draft.constants.size)) } :=
    ⟨.refl _, extends_push _ _⟩
  refine ⟨⟨⟨hfollows.sound.scopes, hfollows.sound.constants.push (h _)⟩, hfollows.scopes, ?_⟩,
    hgrown, Context.grown_countLiteral before, fun plan hplan ↦ ⟨hfollows.literals, ?_⟩⟩
  · simp [Context.countLiteral, hfollows.literals]
  · exact hplan.constants _ _ Array.getElem?_push_size

theorem lays_resolve (name : String) :
    Lays (resolve name) draft before ((Expr.ident name).after before) fun symbol plan ↦
      ∃ meaning, before.find? name = some meaning ∧ plan.Loads ⟨name, meaning⟩ symbol.loading := by
  intro hfollows symbol last h
  have hkeeps := keeps_resolve name hfollows.sound
  rw [h] at hkeeps
  obtain ⟨hsound, hgrown, hwithin⟩ := hkeeps
  unfold resolve at h
  cases hresolve : draft.scopes.resolve name with
  | none =>
    rw [hresolve] at h
    cases h
  | some found =>
    rw [hresolve] at h
    cases h
    obtain ⟨meaning, hfind, hscopes, hdenotes, hname⟩ := hfollows.scopes.resolve hresolve
    have hafter : (Expr.ident name).after before = before.use ⟨name, meaning⟩ := by
      rw [Expr.after, hfind]
    have hcontext := before.grown_use ⟨name, meaning⟩
    have hlast : Draft.Follows { draft with scopes := found.2 } (before.use ⟨name, meaning⟩) :=
      ⟨hsound, hscopes, hfollows.literals⟩
    rw [hafter]
    refine ⟨hlast, hgrown, hcontext, fun plan hplan ↦ ⟨meaning, hfind, ?_⟩⟩
    rw [← hcontext.depth_eq] at hdenotes
    exact hname ▸ hlast.loads hplan hdenotes hwithin

theorem lays_define (name : String) :
    Lays (define name) draft before (before.define name).2 fun symbol plan ↦
      plan.Stores (before.define name).1
        ⟨if symbol.place = .global then .setGlobal else .setLocal, [symbol.index]⟩ := by
  rintro hfollows _ _ ⟨⟩
  obtain ⟨hsound, hgrown, _⟩ := keeps_define name hfollows.sound
  have hcontext := before.grown_define name
  refine ⟨⟨hsound, (hfollows.scopes.define name).1, hfollows.literals⟩, hgrown, hcontext, ?_⟩
  intro plan hplan
  have hempty := Tracks.isEmpty hfollows.scopes
  have hslots : draft.scopes.current.definitions = before.names.slots := Tracks.slots hfollows.scopes
  simp only [Context.define, hempty, hslots]
  cases houter : before.outer.isEmpty with
  | true => exact .global _
  | false =>
    have hdepth : plan.depth = before.depth := hplan.depth.trans hcontext.depth_eq
    have hpositive : 0 < plan.depth := by
      rw [hdepth]
      refine List.length_pos_iff.mpr fun hnil ↦ ?_
      rw [hnil] at houter
      cases houter
    simp only [Bool.false_eq_true, if_false, ← hdepth, reduceCtorEq]
    exact .slot (hplan.slots hpositive)

theorem eq_of_loadAll_ok {symbols : List Symbol} {code : List Instruction} {last : Draft}
    (h : loadAll symbols draft = .ok code last) :
    code = symbols.map Symbol.loading ∧ draft = last := by
  induction symbols generalizing code with
  | nil =>
    cases h
    exact ⟨rfl, rfl⟩
  | cons symbol rest ih =>
    rw [loadAll, load_eq] at h
    obtain ⟨first, middle, hfirst, hrest⟩ := bind_eq_ok_iff.mp h
    obtain ⟨rfl, rfl⟩ := eq_of_instruction_ok hfirst
    obtain ⟨others, _, hothers, ⟨⟩⟩ := bind_eq_ok_iff.mp hrest
    obtain ⟨rfl, rfl⟩ := ih hothers
    exact ⟨rfl, rfl⟩

/-- A captured value is loaded around the function as what it is inside. -/
theorem loads_captured {symbols : List Symbol} {uses : List Use} (hfollows : draft.Follows before)
    (hwithin : ∀ symbol ∈ symbols, symbol.Within draft.scopes.limits)
    (hcaptures : Captures before.depth before.names.captures symbols uses) {plan : Plan}
    (hplan : plan.Covers draft before) :
    List.Forall₂ plan.Loads uses (symbols.map Symbol.loading) := by
  induction hcaptures with
  | nil => exact .nil
  | @cons symbol use symbols uses hone _ ih =>
    refine .cons ?_ (ih fun other hmem ↦ hwithin other (List.mem_cons_of_mem _ hmem))
    have hloads := hfollows.loads hplan hone.2 (hwithin symbol List.mem_cons_self)
    rwa [hone.1] at hloads

/-- The code of a body is fit for the function, and what it captures can be loaded around it. -/
theorem lays_inFunction {name : Option String} {parameters : List String} {body : List Stmt}
    (hbody : ∀ draft, Lays (Stmt.assembleAll body .keep 0) draft (before.enter name parameters)
      (Stmt.afterAll body (before.enter name parameters)) fun code plan ↦
        Stmt.LaidAll body plan (before.enter name parameters) 0 code) :
    Lays (inFunction name parameters do
        endBody (Stmt.returns body) (← Stmt.assembleAll body .giveBack 0)) draft before
      (Stmt.afterAll body (before.enter name parameters)).leave fun (code, scope) plan ↦
        let function : Function := ⟨parameters, body, before.enter name parameters⟩
        ∃ inner, Stmt.LaidAll body (function.plan plan.constants) function.context 0 inner ∧
          function.Accepts inner ∧
          ⟨(encodeAll code).toArray, scope.definitions, parameters.length⟩ =
            function.routine inner ∧
          List.Forall₂ plan.Loads function.captures (scope.captured.map Symbol.loading) := by
  intro hfollows yielded last h
  have hbuilds (inner : Draft) : Keeps (do
      endBody (Stmt.returns body) (← Stmt.assembleAll body .giveBack 0)) inner fun code after ↦
        after.Allows 0 code :=
    (Stmt.assembleAll_keeps body .giveBack 0 inner).bind fun _ _ _ hcode ↦ keeps_endBody hcode
  have hkeeps := keeps_inFunction name parameters hbuilds hfollows.sound
  rw [h] at hkeeps
  obtain ⟨hsound, hgrown, hwithin, hwell⟩ := hkeeps
  unfold inFunction at h
  split at h
  · next code inner hwhole =>
    cases h
    rw [Stmt.assembleAll_eq, bind_assoc] at hwhole
    obtain ⟨kept, middle, hkept, hrest⟩ := bind_eq_ok_iff.mp hwhole
    rw [pure_bind, endBody_eq] at hrest
    cases hrest
    obtain ⟨hinner, hinnerGrown, hcontext, hlaid⟩ := hbody _
      ⟨sound_enter hfollows.sound name parameters, hfollows.scopes.enter name parameters,
        hfollows.literals.trans (before.outer_enter name parameters).2.2.symm⟩ kept inner hkept
    obtain ⟨haround, houter⟩ := hcontext.leave
    obtain ⟨hscopes, hcaptures⟩ := hinner.scopes.leave houter
    have hlast : Draft.Follows { inner with scopes := inner.scopes.leave?.getD {} }
        (Stmt.afterAll body (before.enter name parameters)).leave :=
      ⟨hsound, hscopes, hinner.literals⟩
    have hclosing : (kept ++ if Stmt.yields body then Ending.giveBack.instructions else []) ++
        (if Stmt.returns body then [] else [⟨.ret, []⟩]) = kept ++ Function.closing body := by
      unfold Function.closing
      cases hyields : Stmt.yields body with
      | true => simp [Stmt.returns_of_yields hyields, Ending.instructions]
      | false => simp
    have hslots : inner.scopes.current.definitions =
        (Stmt.afterAll body (before.enter name parameters)).names.slots := Tracks.slots hinner.scopes
    rw [hclosing] at hwell ⊢
    refine ⟨hlast, hgrown, haround, fun plan hplan ↦ ⟨kept, ?_, ⟨hwell.fits, ?_, ?_⟩, ?_, ?_⟩⟩
    · exact hlaid _ ⟨hplan.constants, hcontext.depth_eq.symm, List.prefix_rfl, fun _ ↦ Nat.le_refl _⟩
    · rw [← (before.outer_enter name parameters).2.1]
      exact hcontext.names.slots
    · exact Tracks.nodup hinner.scopes
    · simp only [Function.routine, hslots]
      rfl
    · exact loads_captured hlast hwithin hcaptures hplan
  · cases h

theorem lays_function {name : Option String} {parameters : List String} {body : List Stmt}
    {start : Nat}
    (hbody : ∀ draft, Lays (Stmt.assembleAll body .keep 0) draft (before.enter name parameters)
      (Stmt.afterAll body (before.enter name parameters)) fun code plan ↦
        Stmt.LaidAll body plan (before.enter name parameters) 0 code) :
    Lays ((Expr.function parameters body name).assemble start) draft before
      ((Expr.function parameters body name).after before) fun code plan ↦
        (Expr.function parameters body name).Laid plan before start code := by
  intro hfollows code last h
  have hkeeps := (Part.expr (.function parameters body name)).keeps start draft hfollows.sound
  rw [Part.assemble, h] at hkeeps
  rw [Expr.assemble] at h
  obtain ⟨⟨whole, scope⟩, middle, hfunction, hbehind⟩ := bind_eq_ok_iff.mp h
  obtain ⟨hmiddle, _, hcontext, hinside⟩ := lays_inFunction hbody hfollows _ _ hfunction
  obtain ⟨loads, _, hloads, hentry⟩ := bind_eq_ok_iff.mp hbehind
  obtain ⟨rfl, rfl⟩ := eq_of_loadAll_ok hloads
  obtain ⟨entry, _, ⟨⟩, hrest⟩ := bind_eq_ok_iff.mp hentry
  obtain ⟨closure, _, hclosure, hlast⟩ := bind_eq_ok_iff.mp hrest
  obtain ⟨rfl, rfl⟩ := eq_of_instruction_ok hclosure
  cases hlast
  refine ⟨⟨hkeeps.1, hmiddle.scopes, ?_⟩, hkeeps.2.1,
    hcontext.trans (Context.grown_countLiteral _), fun plan hplan ↦ ?_⟩
  · simp [Expr.after, Context.countLiteral, hmiddle.literals]
  · have hextends := extends_push middle.constants (.routine (.literal middle.constants.size)
      ⟨(encodeAll whole).toArray, scope.definitions, parameters.length⟩)
    obtain ⟨inner, hlaid, haccepts, hroutine, hcaptured⟩ := hinside plan
      ⟨hextends.trans hplan.constants, hplan.depth, hplan.captures, hplan.slots⟩
    have hentry : middle.constants.size =
        (Stmt.afterAll body (before.enter name parameters)).literals := hmiddle.literals
    simp only [Expr.Laid]
    refine ⟨inner, _, .literal middle.constants.size, hlaid, haccepts, hcaptured, ?_, ?_⟩
    · rw [← hroutine, ← hentry]
      exact hplan.constants _ _ Array.getElem?_push_size
    · rw [hcaptured.length_eq, List.length_map, hentry]

end Assembly

/-! ### Assembled code -/

section Programs

open Assembly

mutual

theorem Expr.laid_of_assemble : (expr : Expr) → ∀ start draft context,
    Lays (expr.assemble start) draft context (expr.after context) fun code plan ↦
      expr.Laid plan context start code
  | .int value, start, draft, context => by
    rw [Expr.assemble, Expr.after]
    refine (lays_addConstant (fun _ ↦ .integer value) fun _ ↦ trivial).bind
      fun entry last ↦ (lays_instruction _ _).mono ?_
    rintro code plan rfl ⟨rfl, hentry⟩
    exact ⟨hentry, rfl⟩
  | .str content, start, draft, context => by
    rw [Expr.assemble, Expr.after]
    refine (lays_addConstant (.string · content) fun _ ↦ trivial).bind
      fun entry last ↦ (lays_instruction _ _).mono ?_
    rintro code plan rfl ⟨rfl, hentry⟩
    exact ⟨hentry, rfl⟩
  | .bool value, start, draft, context => by
    rw [Expr.assemble, Expr.after]
    refine (lays_instruction _ _).mono ?_
    rintro code plan rfl
    rfl
  | .ident name, start, draft, context => by
    rw [Expr.assemble]
    refine (lays_resolve name).bind fun symbol last ↦ ?_
    rw [load_eq]
    refine (lays_instruction _ _).mono ?_
    rintro code plan rfl ⟨meaning, hfind, hloads⟩
    exact ⟨meaning, symbol.loading, hfind, hloads, rfl⟩
  | .unary op operand, start, draft, context => by
    rw [Expr.assemble, Expr.after]
    refine (operand.laid_of_assemble start draft context).bind fun inner last ↦ ?_
    cases hop : Opcode.ofPrefix? op with
    | none => exact .throw _
    | some opcode =>
      refine (lays_instruction_after _ _ _).mono ?_
      rintro code plan rfl hinner
      exact ⟨opcode, inner, hop, hinner, rfl⟩
  | .binary op left right, start, draft, context => by
    rw [Expr.assemble, Expr.after]
    by_cases hless : op = "<"
    · rw [if_pos hless, if_pos hless]
      refine (right.laid_of_assemble start draft context).bind fun second _ ↦ ?_
      refine (left.laid_of_assemble _ _ _).bind fun first _ ↦ ?_
      refine (lays_instruction_after _ _ _).mono ?_
      rintro code plan rfl hfirst hsecond
      simp only [Expr.Laid, if_pos hless]
      exact ⟨second, first, hsecond, hfirst, rfl⟩
    · rw [if_neg hless, if_neg hless]
      refine (left.laid_of_assemble start draft context).bind fun first _ ↦ ?_
      refine (right.laid_of_assemble _ _ _).bind fun second _ ↦ ?_
      cases hop : Opcode.ofInfix? op with
      | none => exact .throw _
      | some opcode =>
        refine (lays_instruction_after _ _ _).mono ?_
        rintro code plan rfl hsecond hfirst
        simp only [Expr.Laid, if_neg hless]
        exact ⟨opcode, first, second, hop, hfirst, hsecond, rfl⟩
  | .branch condition consequence (some alternative), start, draft, context => by
    rw [Expr.assemble, Expr.after]
    refine (condition.laid_of_assemble start draft context).bind fun test _ ↦ ?_
    refine (Stmt.laidAll_of_assembleAll consequence _ _ _).bind fun first _ ↦ ?_
    refine (lays_instruction _ _).bind fun pass _ ↦ ?_
    refine (Stmt.laidAll_of_assembleAll alternative _ _ _).bind fun second _ ↦ ?_
    refine (lays_instruction _ _).bind fun finish _ ↦ .pure ?_
    rintro plan rfl hsecond rfl hfirst htest
    exact ⟨test, first, second, htest, hfirst, hsecond, rfl⟩
  | .branch condition consequence none, start, draft, context => by
    rw [Expr.assemble, Expr.after]
    refine (condition.laid_of_assemble start draft context).bind fun test _ ↦ ?_
    refine (Stmt.laidAll_of_assembleAll consequence _ _ _).bind fun first _ ↦ ?_
    refine (lays_instruction _ _).bind fun pass _ ↦ ?_
    refine (lays_instruction _ _).bind fun second _ ↦ ?_
    refine (lays_instruction _ _).bind fun finish _ ↦ .pure ?_
    rintro plan rfl rfl rfl hfirst htest
    exact ⟨test, first, htest, hfirst, rfl⟩
  | .function parameters body name, start, draft, context =>
    lays_function fun inner ↦ Stmt.laidAll_of_assembleAll body 0 inner _
  | .call callee arguments, start, draft, context => by
    rw [Expr.assemble, Expr.after]
    refine (callee.laid_of_assemble start draft context).bind fun first _ ↦ ?_
    refine (Expr.laidAll_of_assembleAll arguments _ _ _).bind fun others _ ↦ ?_
    refine (lays_instruction_after _ _ _).mono ?_
    rintro code plan rfl hothers hfirst
    exact ⟨first, others, hfirst, hothers, rfl⟩
  | .array elements, start, draft, context => by
    rw [Expr.assemble, Expr.after]
    refine (Expr.laidAll_of_assembleAll elements start draft context).bind fun inner _ ↦ ?_
    refine (lays_instruction_after _ _ _).mono ?_
    rintro code plan rfl hinner
    exact ⟨inner, hinner, rfl⟩
  | .hash pairs, start, draft, context => by
    rw [Expr.assemble, Expr.after]
    refine (Expr.laidPairs_of_assemblePairs pairs start draft context).bind fun inner _ ↦ ?_
    refine (lays_instruction_after _ _ _).mono ?_
    rintro code plan rfl hinner
    exact ⟨inner, hinner, rfl⟩
  | .index collection position, start, draft, context => by
    rw [Expr.assemble, Expr.after]
    refine (collection.laid_of_assemble start draft context).bind fun first _ ↦ ?_
    refine (position.laid_of_assemble _ _ _).bind fun second _ ↦ ?_
    refine (lays_instruction_after _ _ _).mono ?_
    rintro code plan rfl hsecond hfirst
    exact ⟨first, second, hfirst, hsecond, rfl⟩

theorem Stmt.laid_of_assemble : (stmt : Stmt) → ∀ (atEnd : Bool) start draft context,
    Lays (stmt.assemble (if atEnd then .keep else .discard) start) draft context
      (stmt.after context) fun code plan ↦ stmt.Laid atEnd plan context start code
  | .eval expr, atEnd, start, draft, context => by
    rw [Stmt.assemble, Stmt.after]
    refine (expr.laid_of_assemble start draft context).bind fun inner _ ↦ .pure ?_
    intro plan hinner
    refine ⟨inner, hinner, ?_⟩
    cases atEnd <;> rfl
  | .bind name value, _, start, draft, context => by
    rw [Stmt.assemble, Stmt.after]
    refine (lays_define name).bind fun symbol _ ↦ ?_
    refine (value.laid_of_assemble start _ _).bind fun inner _ ↦ ?_
    refine (lays_instruction_after _ _ _).mono ?_
    rintro code plan rfl hinner hstores
    exact ⟨inner, _, hinner, hstores, rfl⟩
  | .ret value, _, start, draft, context => by
    rw [Stmt.assemble, Stmt.after]
    refine (value.laid_of_assemble start draft context).bind fun inner _ ↦ ?_
    refine (lays_instruction_after _ _ _).mono ?_
    rintro code plan rfl hinner
    exact ⟨inner, hinner, rfl⟩

theorem Stmt.laidAll_of_assembleAll : (stmts : List Stmt) → ∀ start draft context,
    Lays (Stmt.assembleAll stmts .keep start) draft context (Stmt.afterAll stmts context)
      fun code plan ↦ Stmt.LaidAll stmts plan context start code
  | [], start, draft, context => by
    rw [Stmt.assembleAll, Stmt.afterAll]
    exact .pure fun _ ↦ rfl
  | stmt :: rest, start, draft, context => by
    rw [Stmt.assembleAll, Stmt.afterAll]
    refine (stmt.laid_of_assemble rest.isEmpty start draft context).bind fun first _ ↦ ?_
    refine (Stmt.laidAll_of_assembleAll rest _ _ _).bind fun others _ ↦ .pure ?_
    intro plan hothers hfirst
    exact ⟨first, others, hfirst, hothers, rfl⟩

theorem Expr.laidAll_of_assembleAll : (exprs : List Expr) → ∀ start draft context,
    Lays (Expr.assembleAll exprs start) draft context (Expr.afterAll exprs context)
      fun code plan ↦ Expr.LaidAll exprs plan context start code
  | [], start, draft, context => by
    rw [Expr.assembleAll, Expr.afterAll]
    exact .pure fun _ ↦ rfl
  | expr :: rest, start, draft, context => by
    rw [Expr.assembleAll, Expr.afterAll]
    refine (expr.laid_of_assemble start draft context).bind fun first _ ↦ ?_
    refine (Expr.laidAll_of_assembleAll rest _ _ _).bind fun others _ ↦ .pure ?_
    intro plan hothers hfirst
    exact ⟨first, others, hfirst, hothers, rfl⟩

theorem Expr.laidPairs_of_assemblePairs : (pairs : List (Expr × Expr)) → ∀ start draft context,
    Lays (Expr.assemblePairs pairs start) draft context (Expr.afterPairs pairs context)
      fun code plan ↦ Expr.LaidPairs pairs plan context start code
  | [], start, draft, context => by
    rw [Expr.assemblePairs, Expr.afterPairs]
    exact .pure fun _ ↦ rfl
  | (key, value) :: rest, start, draft, context => by
    rw [Expr.assemblePairs, Expr.afterPairs]
    refine (key.laid_of_assemble start draft context).bind fun first _ ↦ ?_
    refine (value.laid_of_assemble _ _ _).bind fun second _ ↦ ?_
    refine (Expr.laidPairs_of_assemblePairs rest _ _ _).bind fun others _ ↦ .pure ?_
    intro plan hothers hsecond hfirst
    exact ⟨first, second, others, hfirst, hsecond, hothers, rfl⟩

end

end Programs

end StackScript
