import StackScript.Proofs.Program.Operation

/-!
Code is carried out as its text is evaluated. By induction on the text, the code of an expression
leaves its value above all that waited before (`Expr.carries`), provided that calls do; and by
induction on the number of functions that can still be at work, calls do (`Eval.call_carries`).
-/

set_option autoImplicit false
set_option relaxedAutoImplicit false

namespace StackScript

open Instruction (size)

/-! ### Branches -/

/-- The value of the block that is taken, none if it does not end with an expression. -/
def Stmt.evaluateBranch (call : Caller) (activation : Activation) (condition : Expr)
    (consequence : List Stmt) (alternative : Option (List Stmt)) (context : Context)
    (height : Nat) : Eval (Option (Value Function)) := do
  let value ← condition.evaluate call activation context height
  if value.isTruthy then
    Stmt.evaluateAll call activation consequence (condition.after context) height
  else
    match alternative with
    | some block =>
      Stmt.evaluateAll call activation block
        (Stmt.afterAll consequence (condition.after context)) height
    | none => return some (← Eval.hold height .null)

/-- A branch has the value of the block that is taken, or null. -/
theorem Expr.evaluate_branch (call : Caller) (activation : Activation) (condition : Expr)
    (consequence : List Stmt) (alternative : Option (List Stmt)) (context : Context)
    (height : Nat) :
    (Expr.branch condition consequence alternative).evaluate call activation context height = do
      let value ← Stmt.evaluateBranch call activation condition consequence alternative context
        height
      return value.getD .null := by
  unfold Stmt.evaluateBranch
  rw [Expr.evaluate, bind_assoc]
  congr
  funext value
  cases value.isTruthy with
  | true => rfl
  | false =>
    cases alternative with
    | some block => rfl
    | none =>
      simp only [Bool.false_eq_true, if_false, bind_assoc, pure_bind, Option.getD_some, bind_pure]

/-- A block that comes to its end has a value just if it ends with an expression; it does not end
with a `return`. -/
theorem Stmt.isSome_of_evaluateAll {call : Caller} {activation : Activation} {stmts : List Stmt}
    {context : Context} {height : Nat} {world after : World} {yielded : Option (Value Function)}
    (h : Stmt.evaluateAll call activation stmts context height world = .ok yielded after) :
    yielded.isSome = Stmt.yields stmts ∧ Stmt.returns stmts = Stmt.yields stmts := by
  induction stmts generalizing context world with
  | nil =>
    cases h
    exact ⟨rfl, rfl⟩
  | cons stmt rest ih =>
    rw [Stmt.evaluateAll] at h
    obtain ⟨value, middle, hstmt, hrest⟩ := bind_eq_ok_iff.mp h
    cases rest with
    | nil =>
      cases hrest
      cases stmt with
      | eval expr =>
        rw [Stmt.evaluate] at hstmt
        obtain ⟨value, _, _, hvalue⟩ := bind_eq_ok_iff.mp hstmt
        cases hvalue
        exact ⟨rfl, rfl⟩
      | bind name value =>
        rw [Stmt.evaluate] at hstmt
        obtain ⟨_, _, _, hwrite⟩ := bind_eq_ok_iff.mp hstmt
        obtain ⟨_, _, _, hpure⟩ := bind_eq_ok_iff.mp hwrite
        cases hpure
        exact ⟨rfl, rfl⟩
      | ret value =>
        rw [Stmt.evaluate] at hstmt
        obtain ⟨_, _, _, hthrow⟩ := bind_eq_ok_iff.mp hstmt
        cases hthrow
    | cons other others =>
      simp only [Stmt.yields, Stmt.returns, List.getLast?_cons_cons] at ih ⊢
      cases value with
      | none => exact ih hrest
      | some value =>
        obtain ⟨_, _, _, hothers⟩ := bind_eq_ok_iff.mp hrest
        exact ih hothers

theorem Stmt.isSome_of_evaluateBranch {call : Caller} {activation : Activation}
    {condition : Expr} {consequence : List Stmt} {alternative : Option (List Stmt)}
    {context : Context} {height : Nat} {world after : World} {yielded : Option (Value Function)}
    (hconsequence : Stmt.returns consequence)
    (halternative : ∀ block, alternative = some block → Stmt.returns block)
    (h : Stmt.evaluateBranch call activation condition consequence alternative context height
      world = .ok yielded after) : yielded.isSome := by
  obtain ⟨value, middle, _, hblock⟩ := bind_eq_ok_iff.mp h
  cases htruthy : value.isTruthy with
  | true =>
    rw [htruthy] at hblock
    obtain ⟨hsome, hyields⟩ := Stmt.isSome_of_evaluateAll hblock
    rwa [hsome, ← hyields]
  | false =>
    rw [htruthy] at hblock
    cases alternative with
    | some block =>
      obtain ⟨hsome, hyields⟩ := Stmt.isSome_of_evaluateAll hblock
      rw [hsome, ← hyields]
      exact halternative block rfl
    | none =>
      obtain ⟨_, _, _, hpure⟩ := bind_eq_ok_iff.mp hblock
      cases hpure
      rfl

/-! ### Expressions and statements -/

/-- A call with the callee and the arguments on the stack is carried out. -/
def Site.Calls (site : Site) (call : Caller) : Prop :=
  ∀ {world : World} {held : List Value} {ip : Nat} {machine : Machine} {callee : Value Function}
    {values : List (Value Function)} {result : Value} {results : List Value},
    callee.Compiled site.plan.constants result →
    List.Forall₂ (Value.Compiled site.plan.constants) values results →
    site.Stands world (held ++ [result] ++ results) ip machine →
    site.Has ip [⟨.call, [values.length]⟩] →
    site.Carries machine (call callee values (site.floor + held.length) world)
      (site.Leaves held (ip + 2))

/-- The value waits, if there is one. -/
def Site.LeavesOption (site : Site) (held : List Value) (ip : Nat)
    (yielded : Option (Value Function)) (world : World) (machine : Machine) : Prop :=
  match yielded with
  | some value => site.Leaves held ip value world machine
  | none => site.Stands world held ip machine

/-- What a statement yields waits, unless it is discarded next. -/
def Site.LeavesLast (site : Site) (held : List Value) (start : Nat) (atEnd : Bool)
    (code : List Instruction) (yielded : Option (Value Function)) (world : World)
    (machine : Machine) : Prop :=
  match yielded with
  | some value => ∃ inner, code = inner ++ (if atEnd then [] else [⟨.pop, []⟩]) ∧
    site.Leaves held (start + size inner) value world machine
  | none => site.Stands world held (start + size code) machine

/-! ### The jumps of a branch -/

namespace Site

variable {site : Site} {start : Nat} {test first second : List Instruction}

theorem Has.branch (h : site.Has start (Expr.branchCode start test first second)) :
    site.Has start test ∧
      site.Has (start + size test)
        [⟨.jumpNotTruthy, [start + size test + 3 + size first + 3]⟩] ∧
      site.Has (start + size test + 3) first ∧
      site.Has (start + size test + 3 + size first)
        [⟨.jump, [start + size test + 3 + size first + 3 + size second]⟩] ∧
      site.Has (start + size test + 3 + size first + 3) second := by
  unfold Expr.branchCode at h
  have hpass : size (test ++ [⟨.jumpNotTruthy, [start + size test + 3 + size first + 3]⟩]) =
      size test + 3 := Instruction.size_append _ _
  have hfirst := h.left.left.right
  have hjump := h.left.right
  have hsecond := h.right
  rw [hpass, ← Nat.add_assoc] at hfirst
  rw [Instruction.size_append, hpass, ← Nat.add_assoc, ← Nat.add_assoc] at hjump
  rw [Instruction.size_append, Instruction.size_append, hpass, ← Nat.add_assoc, ← Nat.add_assoc,
    ← Nat.add_assoc] at hsecond
  exact ⟨h.left.left.left.left, h.left.left.left.right, hfirst, hjump, hsecond⟩

/-- A branch goes through the code of one of its blocks, and what that leaves is left. -/
theorem carries_branch {call : Caller} {context : Context} {condition : Expr}
    {consequence : List Stmt} (alternative : Option (List Stmt)) {height : Nat} {world : World}
    {held : List Value} {machine : Machine}
    (hcode : site.Has start (Expr.branchCode start test first second))
    (hcondition : site.Carries machine
      (condition.evaluate call site.activation context height world)
      (site.Leaves held (start + size test)))
    (hconsequence : ∀ {world machine}, site.Stands world held (start + size test + 3) machine →
      site.Carries machine (Stmt.evaluateAll call site.activation consequence
        (condition.after context) height world)
        (site.LeavesOption held (start + size test + 3 + size first)))
    (halternative : ∀ {world machine},
      site.Stands world held (start + size test + 3 + size first + 3) machine →
      site.Carries machine ((match alternative with
        | some block => Stmt.evaluateAll call site.activation block
          (Stmt.afterAll consequence (condition.after context)) height
        | none => do return some (← Eval.hold height .null)) world)
        (site.LeavesOption held (start + size test + 3 + size first + 3 + size second))) :
    site.Carries machine (Stmt.evaluateBranch call site.activation condition consequence alternative
      context height world)
      (site.LeavesOption held (start + size (Expr.branchCode start test first second))) := by
  obtain ⟨_, hpass, _, hjump, _⟩ := hcode.branch
  rw [Expr.size_branchCode]
  unfold Stmt.evaluateBranch
  refine hcondition.bind ?_
  rintro value world tested ⟨result, hvalue, htested⟩
  obtain ⟨middle, hreaches, hmiddle⟩ := htested.jumpNotTruthy hpass
  rw [hvalue.isTruthy_eq]
  cases htruthy : result.isTruthy with
  | true =>
    rw [htruthy] at hmiddle
    refine .of_reaches hreaches ?_
    rw [if_pos rfl, ← bind_pure (Stmt.evaluateAll _ _ _ _ _)]
    refine (hconsequence hmiddle).bind ?_
    intro yielded world after hafter
    cases yielded with
    | none =>
      obtain ⟨last, hlast, hstands⟩ := Stands.jump hafter hjump
      exact .of_reaches hlast (.pure hstands)
    | some value =>
      obtain ⟨result, hvalue, hstands⟩ := hafter
      obtain ⟨last, hlast, hstands⟩ := hstands.jump hjump
      exact .of_reaches hlast (.pure ⟨result, hvalue, hstands⟩)
  | false =>
    rw [htruthy] at hmiddle
    exact .of_reaches hreaches (halternative hmiddle)

end Site

section Simulation

variable {site : Site} {call : Caller}

mutual

theorem Expr.carries (hsound : site.Sound) (hcall : site.Calls call) (expr : Expr)
    {context : Context} {start height : Nat} {code : List Instruction} {world : World}
    {held : List Value} {machine : Machine} (hbranched : expr.branched)
    (hlaid : expr.Laid site.plan context start code) (hcode : site.Has start code)
    (h : site.Stands world held start machine) (hheight : height = site.floor + held.length) :
    site.Carries machine (expr.evaluate call site.activation context height world)
      (site.Leaves held (start + size code)) := by
  match expr, hbranched, hlaid with
  | .int value, _, ⟨hentry, hsame⟩ =>
    subst hsame
    rw [Expr.evaluate]
    exact h.carries_constant hcode hentry (.integer value) hheight
  | .str content, _, ⟨hentry, hsame⟩ =>
    subst hsame
    rw [Expr.evaluate]
    exact h.carries_constant hcode hentry (.string _ content) hheight
  | .bool value, _, hsame =>
    obtain rfl : code = _ := hsame
    rw [Expr.evaluate]
    cases value with
    | true => exact h.carries_push hcode rfl (.boolean true) hheight
    | false => exact h.carries_push hcode rfl (.boolean false) hheight
  | .ident name, _, ⟨meaning, instruction, hfind, hloads, hsame⟩ =>
    subst hsame
    rw [Expr.evaluate, hfind]
    exact h.carries_load hsound hloads hcode hheight
  | .unary op operand, hbranched, ⟨opcode, inner, hop, hinner, hsame⟩ =>
    subst hsame
    rw [Expr.evaluate, hop]
    refine (operand.carries hsound hcall hbranched hinner hcode.left h hheight).bind ?_
    rintro value world after ⟨result, hvalue, hafter⟩
    rw [Instruction.size_append, ← Nat.add_assoc]
    exact hafter.carries_operatePrefix hcode.right (Opcode.eq_of_ofPrefix? hop) hvalue
  | .binary op left right, hbranched, hlaid =>
    simp only [Expr.branched, Bool.and_eq_true] at hbranched
    rw [Expr.evaluate]
    by_cases hless : op = "<"
    · simp only [Expr.Laid, if_pos hless] at hlaid
      obtain ⟨second, first, hsecond, hfirst, rfl⟩ := hlaid
      rw [if_pos hless]
      refine (right.carries hsound hcall hbranched.2 hsecond hcode.left.left h hheight).bind ?_
      rintro value world middle ⟨result, hvalue, hmiddle⟩
      refine (left.carries hsound hcall hbranched.1 hfirst hcode.left.right hmiddle
        (by simp [hheight, Nat.add_assoc])).bind ?_
      rintro other world after ⟨rest, hother, hafter⟩
      rw [Nat.add_assoc, ← Instruction.size_append] at hafter
      rw [Instruction.size_append, ← Nat.add_assoc]
      exact hafter.carries_operate hcode.right (by simp) hvalue hother
    · simp only [Expr.Laid, if_neg hless] at hlaid
      obtain ⟨opcode, first, second, hop, hfirst, hsecond, rfl⟩ := hlaid
      rw [if_neg hless]
      refine (left.carries hsound hcall hbranched.1 hfirst hcode.left.left h hheight).bind ?_
      rintro value world middle ⟨result, hvalue, hmiddle⟩
      refine (right.carries hsound hcall hbranched.2 hsecond hcode.left.right hmiddle
        (by simp [hheight, Nat.add_assoc])).bind ?_
      rintro other world after ⟨rest, hother, hafter⟩
      rw [Nat.add_assoc, ← Instruction.size_append] at hafter
      rw [Instruction.size_append, ← Nat.add_assoc, hop]
      exact hafter.carries_operate hcode.right (Opcode.mem_of_ofInfix? hop) hvalue hother
  | .branch condition consequence (some alternative), hbranched,
      ⟨test, first, second, htest, hfirst, hsecond, hsame⟩ =>
    subst hsame
    simp only [Expr.branched, Bool.and_eq_true] at hbranched
    obtain ⟨⟨hcondition, hreturns, hconsequence⟩, hothers, halternative⟩ := hbranched
    obtain ⟨htestCode, _, hfirstCode, _, hsecondCode⟩ := hcode.branch
    rw [Expr.evaluate_branch]
    refine (Site.carries_branch (some alternative) hcode
      (condition.carries hsound hcall hcondition htest htestCode h hheight)
      (fun h ↦ Stmt.carriesAll hsound hcall consequence hconsequence hfirst hfirstCode h hheight)
      fun h ↦ Stmt.carriesAll hsound hcall alternative halternative hsecond hsecondCode h
        hheight).with_outcome.bind ?_
    rintro (_ | value) world after ⟨hleaves, hevaluate⟩
    · have hsome := Stmt.isSome_of_evaluateBranch hreturns (by rintro _ ⟨⟩; exact hothers) hevaluate
      cases hsome
    · exact .pure hleaves
  | .branch condition consequence none, hbranched, ⟨test, first, htest, hfirst, hsame⟩ =>
    subst hsame
    simp only [Expr.branched, Bool.and_eq_true] at hbranched
    obtain ⟨hcondition, hreturns, hconsequence⟩ := hbranched
    obtain ⟨htestCode, _, hfirstCode, _, hsecondCode⟩ := hcode.branch
    rw [Expr.evaluate_branch]
    refine (Site.carries_branch none hcode
      (condition.carries hsound hcall hcondition htest htestCode h hheight)
      (fun h ↦ Stmt.carriesAll hsound hcall consequence hconsequence hfirst hfirstCode h hheight)
      fun h ↦ (h.carries_push hsecondCode rfl .null hheight).bind
        fun value world after hleaves ↦ .pure hleaves).with_outcome.bind ?_
    rintro (_ | value) world after ⟨hleaves, hevaluate⟩
    · have hsome := Stmt.isSome_of_evaluateBranch hreturns (by rintro _ ⟨⟩) hevaluate
      cases hsome
    · exact .pure hleaves
  | .function parameters body name, hbranched,
      ⟨inner, loads, label, hbody, haccepts, hcaptures, hentry, hsame⟩ =>
    subst hsame
    rw [Expr.evaluate, Instruction.size_append, ← Nat.add_assoc]
    refine (h.carries_loadAll hsound hcaptures hcode.left hheight).bind ?_
    rintro values world after ⟨hcount, results, hvalues, hafter⟩
    exact hafter.carries_closure hvalues hcount.symm hcode.right hentry
      ⟨hbranched, hcount.symm.trans hvalues.length_eq, inner, hbody, haccepts, rfl⟩ hheight
  | .call callee arguments, hbranched, ⟨first, others, hfirst, hothers, hsame⟩ =>
    subst hsame
    simp only [Expr.branched, Bool.and_eq_true] at hbranched
    rw [Expr.evaluate, Instruction.size_append, ← Nat.add_assoc]
    refine (callee.carries hsound hcall hbranched.1 hfirst hcode.left.left h hheight).bind ?_
    rintro value world middle ⟨result, hvalue, hmiddle⟩
    refine (Expr.carriesAll hsound hcall arguments hbranched.2 hothers hcode.left.right hmiddle
      (by simp [hheight, Nat.add_assoc])).bind ?_
    rintro values world after ⟨hcount, results, hvalues, hafter⟩
    rw [Nat.add_assoc, ← Instruction.size_append] at hafter
    have hlast := hcode.right
    rw [← hcount] at hlast
    rw [hheight]
    exact hcall hvalue hvalues hafter hlast
  | .array elements, hbranched, ⟨inner, hinner, hsame⟩ =>
    subst hsame
    rw [Expr.evaluate, Instruction.size_append, ← Nat.add_assoc]
    refine (Expr.carriesAll hsound hcall elements hbranched hinner hcode.left h hheight).bind ?_
    rintro values world after ⟨hcount, results, hvalues, hafter⟩
    have hlast := hcode.right
    rw [← hcount] at hlast
    exact hafter.carries_array hvalues hlast hheight
  | .hash pairs, hbranched, ⟨inner, hinner, hsame⟩ =>
    subst hsame
    rw [Expr.evaluate, Instruction.size_append, ← Nat.add_assoc]
    refine (Expr.carriesPairs hsound hcall pairs hbranched hinner hcode.left h hheight).bind ?_
    rintro values world after ⟨hcount, results, hvalues, hafter⟩
    exact hafter.carries_hash hvalues hcount.symm hcode.right hheight
  | .index collection position, hbranched, ⟨first, second, hfirst, hsecond, hsame⟩ =>
    subst hsame
    simp only [Expr.branched, Bool.and_eq_true] at hbranched
    rw [Expr.evaluate, Instruction.size_append, ← Nat.add_assoc]
    refine (collection.carries hsound hcall hbranched.1 hfirst hcode.left.left h hheight).bind ?_
    rintro value world middle ⟨result, hvalue, hmiddle⟩
    refine (position.carries hsound hcall hbranched.2 hsecond hcode.left.right hmiddle
      (by simp [hheight, Nat.add_assoc])).bind ?_
    rintro other world after ⟨rest, hother, hafter⟩
    rw [Nat.add_assoc, ← Instruction.size_append] at hafter
    exact hafter.carries_index hcode.right hvalue hother

theorem Stmt.carries (hsound : site.Sound) (hcall : site.Calls call) (stmt : Stmt) (atEnd : Bool)
    {context : Context} {start height : Nat} {code : List Instruction} {world : World}
    {held : List Value} {machine : Machine} (hbranched : stmt.branched)
    (hlaid : stmt.Laid atEnd site.plan context start code) (hcode : site.Has start code)
    (h : site.Stands world held start machine) (hheight : height = site.floor + held.length) :
    site.Carries machine (stmt.evaluate call site.activation context height world)
      (site.LeavesLast held start atEnd code) := by
  match stmt, hbranched, hlaid with
  | .eval expr, hbranched, ⟨inner, hinner, hsame⟩ =>
    subst hsame
    rw [Stmt.evaluate]
    refine (expr.carries hsound hcall hbranched hinner hcode.left h hheight).bind ?_
    intro value world after hleaves
    exact .pure ⟨inner, rfl, hleaves⟩
  | .bind name value, hbranched, ⟨inner, instruction, hinner, hstores, hsame⟩ =>
    subst hsame
    rw [Stmt.evaluate]
    refine (value.carries hsound hcall hbranched hinner hcode.left h hheight).bind ?_
    rintro value world middle ⟨result, hvalue, hmiddle⟩
    refine (hmiddle.carries_write hsound hstores hcode.right hvalue).bind ?_
    intro _ world after hafter
    refine .pure ?_
    change site.Stands world held (start + size (inner ++ [instruction])) after
    rw [Instruction.size_append, ← Nat.add_assoc]
    exact hafter
  | .ret value, hbranched, ⟨inner, hinner, hsame⟩ =>
    subst hsame
    rw [Stmt.evaluate]
    refine (value.carries hsound hcall hbranched hinner hcode.left h hheight).bind ?_
    rintro value world after ⟨result, hvalue, hafter⟩
    exact hafter.carries_return hcode.right hvalue

theorem Stmt.carriesAll (hsound : site.Sound) (hcall : site.Calls call) (stmts : List Stmt)
    {context : Context} {start height : Nat} {code : List Instruction} {world : World}
    {held : List Value} {machine : Machine} (hbranched : Stmt.branchedAll stmts)
    (hlaid : Stmt.LaidAll stmts site.plan context start code) (hcode : site.Has start code)
    (h : site.Stands world held start machine) (hheight : height = site.floor + held.length) :
    site.Carries machine (Stmt.evaluateAll call site.activation stmts context height world)
      (site.LeavesOption held (start + size code)) := by
  match stmts, hbranched, hlaid with
  | [], _, hsame =>
    obtain rfl : code = [] := hsame
    exact .pure h
  | [stmt], hbranched, ⟨first, others, hfirst, hothers, hsame⟩ =>
    obtain rfl : others = [] := hothers
    rw [List.append_nil] at hsame
    subst hsame
    simp only [Stmt.branchedAll, Bool.and_true] at hbranched
    rw [Stmt.evaluateAll]
    refine (stmt.carries hsound hcall true hbranched hfirst hcode h hheight).bind ?_
    rintro (_ | value) world after hleaves
    · exact .pure hleaves
    · obtain ⟨inner, hsame, hleaves⟩ := hleaves
      rw [if_pos rfl, List.append_nil] at hsame
      subst hsame
      exact .pure hleaves
  | stmt :: other :: rest, hbranched, ⟨first, others, hfirst, hothers, hsame⟩ =>
    subst hsame
    simp only [Stmt.branchedAll, Bool.and_eq_true] at hbranched
    have hrest : Stmt.branchedAll (other :: rest) := by
      simpa only [Stmt.branchedAll, Bool.and_eq_true] using hbranched.2
    rw [Stmt.evaluateAll, Instruction.size_append, ← Nat.add_assoc]
    refine (stmt.carries hsound hcall false hbranched.1 hfirst hcode.left h hheight).bind ?_
    rintro (_ | value) world middle hleaves
    · exact Stmt.carriesAll hsound hcall (other :: rest) hrest hothers hcode.right hleaves hheight
    · obtain ⟨inner, rfl, result, hvalue, hmiddle⟩ := hleaves
      refine (hmiddle.carries_discard hcode.left.right hvalue).bind ?_
      intro _ world after hafter
      rw [Nat.add_assoc] at hafter
      refine Stmt.carriesAll hsound hcall (other :: rest) hrest hothers hcode.right ?_ hheight
      rw [Instruction.size_append]
      exact hafter

theorem Expr.carriesAll (hsound : site.Sound) (hcall : site.Calls call) (exprs : List Expr)
    {context : Context} {start height : Nat} {code : List Instruction} {world : World}
    {held : List Value} {machine : Machine} (hbranched : Expr.branchedAll exprs)
    (hlaid : Expr.LaidAll exprs site.plan context start code) (hcode : site.Has start code)
    (h : site.Stands world held start machine) (hheight : height = site.floor + held.length) :
    site.Carries machine (Expr.evaluateAll call site.activation exprs context height world)
      (site.LeavesAll held (start + size code) exprs.length) := by
  match exprs, hbranched, hlaid with
  | [], _, hsame =>
    obtain rfl : code = [] := hsame
    rw [Expr.evaluateAll]
    exact .pure ⟨rfl, [], .nil, by simpa using h⟩
  | expr :: rest, hbranched, ⟨first, others, hfirst, hothers, hsame⟩ =>
    subst hsame
    simp only [Expr.branchedAll, Bool.and_eq_true] at hbranched
    rw [Expr.evaluateAll, Instruction.size_append, ← Nat.add_assoc]
    refine (expr.carries hsound hcall hbranched.1 hfirst hcode.left h hheight).bind ?_
    rintro value world middle ⟨result, hvalue, hmiddle⟩
    refine (Expr.carriesAll hsound hcall rest hbranched.2 hothers hcode.right hmiddle
      (by simp [hheight, Nat.add_assoc])).bind ?_
    rintro values world after ⟨hcount, results, hvalues, hafter⟩
    refine .pure ⟨congrArg (· + 1) hcount, result :: results, .cons hvalue hvalues, ?_⟩
    simpa using hafter

theorem Expr.carriesPairs (hsound : site.Sound) (hcall : site.Calls call)
    (pairs : List (Expr × Expr)) {context : Context} {start height : Nat}
    {code : List Instruction} {world : World} {held : List Value} {machine : Machine}
    (hbranched : Expr.branchedPairs pairs)
    (hlaid : Expr.LaidPairs pairs site.plan context start code) (hcode : site.Has start code)
    (h : site.Stands world held start machine) (hheight : height = site.floor + held.length) :
    site.Carries machine (Expr.evaluatePairs call site.activation pairs context height world)
      (site.LeavesAll held (start + size code) (2 * pairs.length)) := by
  match pairs, hbranched, hlaid with
  | [], _, hsame =>
    obtain rfl : code = [] := hsame
    rw [Expr.evaluatePairs]
    exact .pure ⟨rfl, [], .nil, by simpa using h⟩
  | (key, value) :: rest, hbranched, ⟨first, second, others, hfirst, hsecond, hothers, hsame⟩ =>
    subst hsame
    simp only [Expr.branchedPairs, Bool.and_eq_true] at hbranched
    rw [Expr.evaluatePairs]
    refine (key.carries hsound hcall hbranched.1.1 hfirst hcode.left.left h hheight).bind ?_
    rintro found world middle ⟨result, hfound, hmiddle⟩
    refine (value.carries hsound hcall hbranched.1.2 hsecond hcode.left.right hmiddle
      (by simp [hheight, Nat.add_assoc])).bind ?_
    rintro other world next ⟨second, hother, hnext⟩
    rw [Nat.add_assoc, ← Instruction.size_append] at hnext
    refine (Expr.carriesPairs hsound hcall rest hbranched.2
      (by simpa [Nat.add_assoc] using hothers) hcode.right hnext
      (by simp [hheight, Nat.add_assoc])).bind ?_
    rintro values world after ⟨hcount, results, hvalues, hafter⟩
    refine .pure ⟨?_, result :: second :: results, .cons hfound (.cons hother hvalues), ?_⟩
    · simp only [List.length_cons, hcount]
      omega
    · rw [Instruction.size_append, ← Nat.add_assoc]
      simpa using hafter

end

end Simulation

end StackScript
