import StackScript.Proofs.Program.Correct

/-!
What the code of a branch leaves behind. If the block that is taken ends with an expression, its
value is one more that waits; if there is no block to take, null is. A block that is empty or does
not end with an expression leaves nothing, so that the value that is asked for next is one that
waited before (`Site.leaves_branch`).
-/

set_option autoImplicit false
set_option relaxedAutoImplicit false

namespace StackScript

open Instruction (size)

/-- Whether there is a value when the block that is taken comes to its end. Null stands for a block
that is absent. -/
def Stmt.yieldsTaken (consequence : List Stmt) (alternative : Option (List Stmt)) (truthy : Bool) :
    Bool :=
  if truthy then Stmt.yields consequence else alternative.elim true Stmt.yields

theorem Stmt.isSome_eq_yieldsTaken {call : Caller} {activation : Activation} {condition : Expr}
    {consequence : List Stmt} {alternative : Option (List Stmt)} {context : Context} {height : Nat}
    {world after : World} {yielded : Option (Value Function)}
    (h : Stmt.evaluateBranch call activation condition consequence alternative context height
      world = .ok yielded after) :
    ∃ value middle, condition.evaluate call activation context height world = .ok value middle ∧
      yielded.isSome = Stmt.yieldsTaken consequence alternative value.isTruthy := by
  obtain ⟨value, middle, hcondition, hblock⟩ := bind_eq_ok_iff.mp h
  refine ⟨value, middle, hcondition, ?_⟩
  cases htruthy : value.isTruthy with
  | true =>
    rw [htruthy] at hblock
    exact (Stmt.isSome_of_evaluateAll hblock).1
  | false =>
    rw [htruthy] at hblock
    cases alternative with
    | some block => exact (Stmt.isSome_of_evaluateAll hblock).1
    | none =>
      obtain ⟨_, _, _, hpure⟩ := bind_eq_ok_iff.mp hblock
      cases hpure
      rfl

namespace Site

variable {site : Site} {condition : Expr} {consequence : List Stmt}
  {alternative : Option (List Stmt)} {context : Context} {start : Nat} {code : List Instruction}
  {world : World} {held : List Value} {machine : Machine}

theorem LeavesOption.sp_eq {ip : Nat} {yielded : Option (Value Function)}
    (h : site.LeavesOption held ip yielded world machine) :
    machine.sp = site.floor + held.length + if yielded.isSome then 1 else 0 := by
  cases yielded with
  | none => exact Stands.sp h
  | some value =>
    obtain ⟨result, _, hstands⟩ := h
    rw [hstands.sp, List.length_append, List.length_singleton, ← Nat.add_assoc]
    rfl

/-- Spec §4.2, a branch is an expression and must leave a value. Assumes: the machine stands in
front of the code of the branch, which is laid out as compiled (`hlaid`, `hcode`, `h`), in a sound
site (`hsound`) with so many frames left (`hframes`), and the blocks inside of its parts yield
values where they must (`hcondition`, `hconsequence`, `halternative`). The code does what evaluation
of the branch does. If it comes to its end it leaves one value if the block that is taken yields
one, and else none, so that a block which is empty or ends with a `let` leaves the stack one value
short. -/
theorem leaves_branch (hsound : site.Sound) {frames : Nat}
    (hframes : frames + site.callers.size + 1 = frameLimit)
    (hcondition : condition.branched) (hconsequence : Stmt.branchedAll consequence)
    (halternative : ∀ block, alternative = some block → Stmt.branchedAll block)
    (hlaid : (Expr.branch condition consequence alternative).Laid site.plan context start code)
    (hcode : site.Has start code) (h : site.Stands world held start machine) :
    let height := site.floor + held.length
    site.Carries machine (Stmt.evaluateBranch (Eval.call frames) site.activation condition
      consequence alternative context height world) fun yielded after last ↦
        site.LeavesOption held (start + size code) yielded after last ∧
        ∃ value middle,
          condition.evaluate (Eval.call frames) site.activation context height world =
            .ok value middle ∧
          last.sp = machine.sp +
            if Stmt.yieldsTaken consequence alternative value.isTruthy then 1 else 0 := by
  intro height
  have hcall : site.Calls (Eval.call frames) := Eval.call_carries frames hframes
  have hcarries : site.Carries machine (Stmt.evaluateBranch (Eval.call frames) site.activation
      condition consequence alternative context height world)
      (site.LeavesOption held (start + size code)) := by
    cases alternative with
    | none =>
      obtain ⟨test, first, htest, hfirst, rfl⟩ := hlaid
      obtain ⟨htestCode, _, hfirstCode, _, hnull⟩ := hcode.branch
      exact Site.carries_branch none hcode
        (condition.carries hsound hcall hcondition htest htestCode h rfl)
        (fun h ↦ Stmt.carriesAll hsound hcall consequence hconsequence hfirst hfirstCode h rfl)
        fun h ↦ (h.carries_push hnull rfl .null rfl).bind fun _ _ _ hleaves ↦ .pure hleaves
    | some block =>
      obtain ⟨test, first, second, htest, hfirst, hsecond, rfl⟩ := hlaid
      obtain ⟨htestCode, _, hfirstCode, _, hsecondCode⟩ := hcode.branch
      exact Site.carries_branch (some block) hcode
        (condition.carries hsound hcall hcondition htest htestCode h rfl)
        (fun h ↦ Stmt.carriesAll hsound hcall consequence hconsequence hfirst hfirstCode h rfl)
        fun h ↦ Stmt.carriesAll hsound hcall block (halternative block rfl) hsecond hsecondCode h
          rfl
  refine hcarries.with_outcome.mono ?_
  rintro yielded after last ⟨hleaves, hevaluate⟩
  obtain ⟨value, middle, hvalue, hyields⟩ := Stmt.isSome_eq_yieldsTaken hevaluate
  refine ⟨hleaves, value, middle, hvalue, ?_⟩
  rw [← hyields, hleaves.sp_eq, h.sp]

end Site

/-- A program with an empty block. -/
def Program.hollow : Program :=
  ⟨[.eval (.branch (.bool true) [] none)]⟩

open Program (hollow)

theorem Site.leaves_branch_hollow : ∃ builder, Builder.new.add hollow = (none, builder) ∧
    ∃ code count last,
      (Expr.branch (.bool true) [] none).Laid (whole builder.bytecode).plan .top 0 code ∧
      (whole builder.bytecode).Has 0 code ∧
      (Machine.new builder.bytecode #[] 0).Reaches count last ∧ last.frame.ip = size code ∧
      last.sp = 0 := by
  have hnone : (Builder.new.add hollow).1 = none := by decide +kernel
  rcases hadd : Builder.new.add hollow with ⟨error?, builder⟩
  rw [hadd] at hnone
  subst hnone
  obtain ⟨_, ⟨_, _, ⟨code, hlaid, rfl⟩, rfl, rfl⟩, hbytes, hfits⟩ := Program.laid_of_add hadd
  have hcode : (whole builder.bytecode).Has 0 code :=
    (Has.mk ⟨[], [], by simp [whole, Machine.new, hbytes], rfl⟩ hfits).left.left.left
  obtain ⟨count, last, hreaches, hstands, value, middle, hvalue, hsp⟩ :=
    leaves_branch (sound_whole builder.bytecode) rfl rfl rfl (by simp) hlaid hcode
      (stands_whole builder.bytecode)
  cases hvalue
  refine ⟨builder, rfl, code, count, last, hlaid, hcode, hreaches, ?_, hsp⟩
  have hframe := Stands.frame hstands
  rw [hframe, Nat.zero_add]

/-- The error of a run that failed. -/
def Session.Answer.failure? (answer : Session.Answer) : Option RunError :=
  match answer.result with
  | .error (.runtime error) => some error
  | _ => none

/-- The value that such a program is to discard is missing. -/
theorem Session.hollow_underflows :
    (Session.enter {} hollow).1.failure? = some .stackUnderflow := by
  decide +kernel

end StackScript
