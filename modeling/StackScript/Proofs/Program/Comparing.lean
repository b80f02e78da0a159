import StackScript.Proofs.Program.Correct
import StackScript.Proofs.Program.Tracking
import StackScript.Proofs.Value.Identity

/-!
A variable compared with itself. Reading a variable changes nothing, so that both operands come to
one value, and the answer is whether that value is the same as itself (`Expr.evaluate_self`). So
where a program that binds a name and reads it yields a value, the program that compares the name
with itself answers true, unless the value is an error (`Program.run_self`).
-/

set_option autoImplicit false
set_option relaxedAutoImplicit false

namespace StackScript

/-! ### Evaluation -/

variable {call : Caller} {activation : Activation} {context : Context} {height : Nat}
  {world after : World} {name : String} {result : Value Function}

theorem Context.find?_use (context : Context) (use : Use) (name : String) :
    (context.use use).find? name = context.find? name := by
  simp only [find?, Context.use, findIn, Names.find?_note, findIn_noteIn]

theorem Eval.hold_of_lt (h : height < stackSize) : hold height result = Pure.pure result :=
  if_neg (Nat.not_le_of_lt h)

/-- Reading a variable changes nothing. -/
theorem Eval.read_ends (activation : Activation) (use : Use) (world : World) :
    Ends (read activation use) world (fun _ after ↦ after = world) fun _ _ ↦ True := by
  have hcaptured : Ends (readCaptured activation use) world (fun _ after ↦ after = world)
      fun _ _ ↦ True := by
    unfold readCaptured
    split
    · exact .pure rfl
    · exact .throw trivial
  have hlocal : ∀ slot, Ends (readLocal slot) world (fun _ after ↦ after = world)
      fun _ _ ↦ True := by
    intro slot
    unfold Ends readLocal
    rcases world.locals[slot]? with _ | _ | value
    · trivial
    · trivial
    · rfl
  unfold read
  split
  · next slot _ =>
    unfold Ends readGlobal
    cases world.globals slot with
    | none => trivial
    | some value => rfl
  · exact .pure rfl
  · split
    · exact hlocal _
    · exact hcaptured
  · split
    · exact .pure rfl
    · exact hcaptured

/-- A variable is read once for each operand, with one result. -/
theorem Expr.evaluate_self
    (h : (Expr.ident name).evaluate call activation context height world = .ok result after)
    (hroom : height + 1 < stackSize) :
    (Expr.binary "==" (.ident name) (.ident name)).evaluate call activation context height world =
      .ok (.boolean (result.isSame result)) after := by
  have hfirst := h
  rw [Expr.evaluate] at h
  cases hfind : context.find? name with
  | none =>
    rw [hfind] at h
    cases h
  | some meaning =>
    rw [hfind] at h
    obtain ⟨value, middle, hread, hheld⟩ := bind_eq_ok_iff.mp h
    obtain rfl : middle = world := (Eval.read_ends activation _ world).at_ok hread
    rw [Eval.hold_of_lt (Nat.lt_of_succ_lt hroom)] at hheld
    cases hheld
    have hsecond : (Expr.ident name).evaluate call activation
        ((Expr.ident name).after context) (height + 1) after = .ok result after := by
      have hsame : ((Expr.ident name).after context).find? name = some meaning := by
        simp only [Expr.after, hfind, Context.find?_use]
      rw [Expr.evaluate, hsame]
      refine (bind_of_ok hread).trans ?_
      rw [Eval.hold_of_lt hroom]
      rfl
    rw [Expr.evaluate, if_neg (by decide), bind_of_ok hfirst, bind_of_ok hsecond]
    simp only [Opcode.ofInfix?, Eval.operate, Value.compare_equal]
    rfl

/-! ### Programs -/

/-- A program that gives a value a name and goes on with an expression. -/
def Program.letThen (name : String) (value last : Expr) : Program :=
  ⟨[.bind name value, .eval last]⟩

/-- `x == x` for the name `x`. -/
def Expr.self (name : String) : Expr :=
  .binary "==" (.ident name) (.ident name)

namespace Program

variable {value last : Expr}

theorem evaluateAll_letThen (name : String) (value last : Expr) (context : Context) :
    Stmt.evaluateAll call activation (letThen name value last).statements context height = (do
      Eval.write (context.define name).1
        (← value.evaluate call activation (context.define name).2 height)
      return some
        (← last.evaluate call activation ((Stmt.bind name value).after context) height)) := by
  simp [letThen, Stmt.evaluateAll, Stmt.evaluate]

theorem assembleAll_letThen (name : String) (value last : Expr) :
    Stmt.assembleAll (letThen name value last).statements .discard 0 = (do
      let first ← (Stmt.bind name value).assemble .discard 0
      let second ← last.assemble (Instruction.size first)
      return first ++ (second ++ [⟨.pop, []⟩])) := by
  simp [letThen, Stmt.assembleAll, Stmt.assemble, Ending.instructions]

/-- What is compiled when a name is compared with itself, is also compiled when it is read. -/
theorem add_ident_of_add_self {builder : Builder}
    (h : Builder.new.add (letThen name value (.self name)) = (none, builder)) :
    ∃ other, Builder.new.add (letThen name value (.ident name)) = (none, other) := by
  obtain ⟨code, draft, hcode, _⟩ := assembled_of_add h
  rw [assembleAll_letThen] at hcode
  obtain ⟨first, middle, hfirst, hrest⟩ := bind_eq_ok_iff.mp hcode
  obtain ⟨second, later, hself, _⟩ := bind_eq_ok_iff.mp hrest
  rw [Expr.self, Expr.assemble, if_neg (by decide)] at hself
  obtain ⟨load, last, hload, _⟩ := bind_eq_ok_iff.mp hself
  have hread : Stmt.assembleAll (letThen name value (.ident name)).statements .discard 0
      Builder.new.draft = .ok (first ++ (load ++ [⟨.pop, []⟩])) last := by
    rw [assembleAll_letThen, bind_of_ok hfirst, bind_of_ok hload]
    rfl
  have hadd := add_eq_assemble Builder.new (letThen name value (.ident name))
  have hsame : Stmt.assembleAll (letThen name value (.ident name)).statements .discard
      Builder.new.buffer.code.size Builder.new.draft = _ := hread
  rw [hsame] at hadd
  obtain ⟨buffer, hother, _⟩ := hadd
  exact ⟨_, hother⟩

/-- Where `let x = e; x` comes to a value, `let x = e; x == x` answers true, unless the value is an
error. -/
theorem run_self {builder : Builder} (hbranched : value.branched)
    (hcompile : Builder.new.add (letThen name value (.self name)) = (none, builder))
    (hvalue : Stmt.evaluateAll (Eval.call (frameLimit - 1)) {}
      (letThen name value (.ident name)).statements .top 0 {} = .ok (some result) after) :
    ∃ machine, Run.run (Machine.new builder.bytecode #[] 0) = .ok () machine ∧
      machine.lastPopped = some (.boolean (decide (result.kind ≠ .error))) := by
  have hself : Stmt.evaluateAll (Eval.call (frameLimit - 1)) {}
      (letThen name value (.self name)).statements .top 0 {} =
        .ok (some (.boolean (result.isSame result))) after := by
    rw [evaluateAll_letThen] at hvalue ⊢
    obtain ⟨bound, world, hbound, hrest⟩ := bind_eq_ok_iff.mp hvalue
    obtain ⟨_, written, hwrite, hread⟩ := bind_eq_ok_iff.mp hrest
    obtain ⟨read, _, hread, hlast⟩ := bind_eq_ok_iff.mp hread
    cases hlast
    rw [bind_of_ok hbound, bind_of_ok hwrite]
    exact bind_of_ok (Expr.evaluate_self hread (by decide))
  -- the value itself is one that a machine can hold
  obtain ⟨other, hother⟩ := add_ident_of_add_self hcompile
  have hkind : result.kind ≠ .returned := by
    obtain ⟨_, _, _, hagrees⟩ := halts_agrees
      (by simp [letThen, Stmt.branchedAll, Stmt.branched, Expr.branched, hbranched]) hother
    rw [evaluate, hvalue] at hagrees
    obtain ⟨_, _, _, _, hcompiled⟩ := hagrees.popped rfl
    cases hcompiled <;> simp [Value.kind]
  obtain ⟨_, _, hhalts, hagrees⟩ := halts_agrees
    (by simp [letThen, Expr.self, Stmt.branchedAll, Stmt.branched, Expr.branched, hbranched])
    hcompile
  rw [evaluate, hself] at hagrees
  obtain ⟨machine, _, rfl, hpopped, hcompiled⟩ := hagrees.popped rfl
  cases hcompiled
  refine ⟨machine, run_of_halts hcompile hhalts, ?_⟩
  rw [hpopped, Value.isSame_self]
  simp [hkind]

end Program

end StackScript
