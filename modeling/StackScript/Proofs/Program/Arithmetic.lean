import StackScript.Program.Arithmetic
import StackScript.Proofs.Program.Correct

/-!
Arithmetic is exact modulo 2^64. What evaluation finds in 64 bits at a node is congruent to the
exact number there, and nothing fails but the division by what is congruent to zero and the limit of
the stack (`Arithmetic.evaluate_ends`). So the run of such an expression answers the one integer of
64 bits that is congruent to the exact number of the whole (`Arithmetic.run_congruent`).
-/

set_option autoImplicit false
set_option relaxedAutoImplicit false

namespace StackScript

namespace Arithmetic

/-- The integer of 64 bits that is congruent to a number is its balanced residue. -/
theorem toInt_eq_bmod {value : Int64} {number : Int} (h : value.toInt ≡ number [ZMOD 2 ^ 64]) :
    value.toInt = number.bmod (2 ^ 64) := by
  rw [← Int64.toInt_bmod value, ← Int.emod_bmod, ← Int.emod_bmod (x := number)]
  exact congrArg (Int.bmod · _) h

namespace Operation

def opcode : Operation → Opcode
  | sum => .add
  | difference => .sub
  | product => .mul
  | quotient => .div

/-- The operations of the machine compute with residues. -/
theorem operateIntegers_eq (operation : Operation) {x y : Int} {left right : Int64}
    (hleft : left.toInt ≡ x [ZMOD 2 ^ 64]) (hright : right.toInt ≡ y [ZMOD 2 ^ 64]) :
    if operation = quotient ∧ y ≡ 0 [ZMOD 2 ^ 64] then
      Value.operateIntegers operation.opcode left right = .error .divisionByZero
    else ∃ result : Int64, Value.operateIntegers operation.opcode left right = .ok result ∧
      result.toInt ≡ operation.apply x y [ZMOD 2 ^ 64] := by
  cases operation with
  | sum =>
    refine ⟨left + right, rfl, ?_⟩
    rw [Int64.toInt_add]
    exact Int.bmod_emod.trans (hleft.add hright)
  | difference =>
    refine ⟨left - right, rfl, ?_⟩
    rw [Int64.toInt_sub]
    exact Int.bmod_emod.trans (hleft.sub hright)
  | product =>
    refine ⟨left * right, rfl, ?_⟩
    rw [Int64.toInt_mul]
    exact Int.bmod_emod.trans (hleft.mul hright)
  | quotient =>
    have hzero : right = 0 ↔ y ≡ 0 [ZMOD 2 ^ 64] := by
      rw [← Int64.toInt_inj, toInt_eq_bmod hright]
      constructor
      · intro h
        exact Int.bmod_emod.symm.trans (congrArg (· % 2 ^ 64) h)
      · intro h
        have hnone : (0 : Int64).toInt = y.bmod (2 ^ 64) := toInt_eq_bmod h.symm
        exact hnone.symm
    simp only [true_and, ← hzero]
    split
    · next h => exact if_pos h
    · next h =>
      refine ⟨left / right, if_neg h, ?_⟩
      rw [Int64.toInt_div, toInt_eq_bmod hleft, toInt_eq_bmod hright]
      exact Int.bmod_emod

end Operation

variable (call : Caller) (activation : Activation)

theorem evaluate_binary (operation : Operation) (left right : Expr) (context : Context)
    (height : Nat) :
    (Expr.binary operation.sign left right).evaluate call activation context height = (do
      let first ← left.evaluate call activation context height
      let second ← right.evaluate call activation (left.after context) (height + 1)
      Eval.ofExcept (first.operate (← Eval.freshLabel) operation.opcode second)) := by
  cases operation <;> (rw [Expr.evaluate]; rfl)

/-- The value of a node is congruent to its exact number. Where none is found, the stack is full or
some divisor is congruent to zero. -/
theorem evaluate_ends (arithmetic : Arithmetic) (context : Context) (height : Nat) (world : World) :
    Ends (arithmetic.expr.evaluate call activation context height) world
      (fun value _ ↦ (∀ divisor ∈ arithmetic.divisors, ¬divisor.Vanishes) ∧
        ∃ number : Int64, value = .integer number ∧
          number.toInt ≡ arithmetic.exact [ZMOD 2 ^ 64])
      (fun stop _ ↦ stop = .failed .stackOverflow ∨
        stop = .failed .divisionByZero ∧ ∃ divisor ∈ arithmetic.divisors, divisor.Vanishes) := by
  induction arithmetic generalizing context height world with
  | literal value =>
    rw [expr, Expr.evaluate, Eval.hold]
    split
    · exact .inl rfl
    · exact ⟨by simp [divisors], value, rfl, .refl _⟩
  | negation operand ih =>
    rw [expr, Expr.evaluate]
    refine (ih context height world).bind ?_
    rintro _ after ⟨hdivisors, number, rfl, hnumber⟩
    refine ⟨hdivisors, -number, rfl, ?_⟩
    rw [Int64.toInt_neg]
    exact Int.bmod_emod.trans hnumber.neg
  | binary operation left right hleft hright =>
    have hdivisors : (binary operation left right).divisors = left.divisors ++ right.divisors ++
        if operation = .quotient then [right] else [] := by
      cases operation <;> simp [divisors]
    rw [expr, evaluate_binary, hdivisors]
    refine ((hleft context height world).mono (fun _ _ h ↦ h) ?_).bind ?_
    · rintro stop after (hfull | ⟨hzero, divisor, hmem, hvanishes⟩)
      · exact .inl hfull
      · exact .inr ⟨hzero, divisor, by simp [hmem], hvanishes⟩
    rintro _ middle ⟨hfirst, x, rfl, hx⟩
    refine ((hright _ _ middle).mono (fun _ _ h ↦ h) ?_).bind ?_
    · rintro stop after (hfull | ⟨hzero, divisor, hmem, hvanishes⟩)
      · exact .inl hfull
      · exact .inr ⟨hzero, divisor, by simp [hmem], hvanishes⟩
    rintro _ last ⟨hsecond, y, rfl, hy⟩
    have hresult := operation.operateIntegers_eq hx hy
    refine .of_eq_from (bind_of_ok rfl) ?_
    rw [Value.operate]
    split at hresult
    · next hzero =>
      rw [hresult]
      exact .inr ⟨rfl, right, by simp [hzero.1], hzero.2⟩
    · next hdivides =>
      obtain ⟨result, hvalue, hcongruent⟩ := hresult
      rw [hvalue]
      refine ⟨fun divisor hmem ↦ ?_, result, rfl, hcongruent⟩
      rcases List.mem_append.mp hmem with hoperand | hlast
      · exact (List.mem_append.mp hoperand).elim (hfirst divisor) (hsecond divisor)
      · split at hlast
        · next hquotient =>
          rw [List.mem_singleton.mp hlast]
          exact fun hvanishes ↦ hdivides ⟨hquotient, hvanishes⟩
        · cases hlast
end Arithmetic

/-- The one statement of a program yields the value of its expression. -/
theorem Stmt.evaluateAll_eval (call : Caller) (activation : Activation) (expr : Expr)
    (context : Context) (height : Nat) (world : World) :
    Stmt.evaluateAll call activation [.eval expr] context height world =
      match expr.evaluate call activation context height world with
      | .ok value after => .ok (some value) after
      | .error stop after => .error stop after := by
  rw [Stmt.evaluateAll]
  cases hvalue : expr.evaluate call activation context height world with
  | ok value after =>
    have hyields : (Stmt.eval expr).evaluate call activation context height world =
        .ok (some value) after := by
      rw [Stmt.evaluate]
      exact bind_of_ok hvalue
    rw [bind_of_ok hyields]
    rfl
  | error stop after =>
    have hstops : (Stmt.eval expr).evaluate call activation context height world =
        .error stop after := by
      rw [Stmt.evaluate]
      exact bind_of_error hvalue
    rw [bind_of_error hstops]

namespace Arithmetic

/-- What the program of one expression comes to. -/
theorem evaluate_program (arithmetic : Arithmetic) :
    (∃ (number : Int64) (world : World),
      Program.evaluate ⟨[.eval arithmetic.expr]⟩ = .ok () world ∧
      world.discarded = some (.integer number) ∧
      (∀ divisor ∈ arithmetic.divisors, ¬divisor.Vanishes) ∧
      number.toInt ≡ arithmetic.exact [ZMOD 2 ^ 64]) ∨
    (∃ world, Program.evaluate ⟨[.eval arithmetic.expr]⟩ =
      .error (.failed .stackOverflow) world) ∨
    ∃ world, Program.evaluate ⟨[.eval arithmetic.expr]⟩ = .error (.failed .divisionByZero) world ∧
      ∃ divisor ∈ arithmetic.divisors, divisor.Vanishes := by
  rw [Program.evaluate, Stmt.evaluateAll_eval]
  generalize Eval.call (frameLimit - 1) = call
  have hends := evaluate_ends call {} arithmetic .top 0 {}
  cases hvalue : arithmetic.expr.evaluate call {} .top 0 {} with
  | ok value world =>
    obtain ⟨hdivisors, number, rfl, hnumber⟩ := hends.at_ok hvalue
    exact .inl ⟨number, _, rfl, rfl, hdivisors, hnumber⟩
  | error stop world =>
    rcases hends.at_error hvalue with rfl | ⟨rfl, hvanishes⟩
    · exact .inr (.inl ⟨world, rfl⟩)
    · exact .inr (.inr ⟨world, rfl, hvanishes⟩)

theorem branched (arithmetic : Arithmetic) : arithmetic.expr.branched := by
  induction arithmetic with
  | literal => rfl
  | negation operand ih => exact ih
  | binary operation left right hleft hright =>
    rw [expr, Expr.branched, hleft, hright, Bool.and_self]

end Arithmetic

namespace Arithmetic

/-- Spec §8, arithmetic on literals. Assumes: a new builder takes the expression of literals and the
four operations (`hcompile`). Its run fails for want of room on the stack or because of a division
by zero only. If there is room, it fails if and only if some divisor is congruent to zero; else it
answers the one integer that is congruent to the exact number modulo 2^64. -/
theorem run_congruent {arithmetic : Arithmetic} {builder : Builder}
    (hcompile : Builder.new.add ⟨[.eval arithmetic.expr]⟩ = (none, builder)) :
    (∀ error machine, Run.run (Machine.new builder.bytecode #[] 0) = .error error machine →
      error = .stackOverflow ∨ error = .divisionByZero) ∧
    ((∀ machine, Run.run (Machine.new builder.bytecode #[] 0) ≠ .error .stackOverflow machine) →
      ((∃ machine, Run.run (Machine.new builder.bytecode #[] 0) =
        .error .divisionByZero machine) ↔ ∃ divisor ∈ arithmetic.divisors, divisor.Vanishes) ∧
      ((∀ divisor ∈ arithmetic.divisors, ¬divisor.Vanishes) → ∃ machine value,
        Run.run (Machine.new builder.bytecode #[] 0) = .ok () machine ∧
        machine.lastPopped = some (.integer value) ∧
        ∀ other : Int64, other.toInt ≡ arithmetic.exact [ZMOD 2 ^ 64] ↔ other = value)) := by
  obtain ⟨count, result, hhalts, hagrees⟩ :=
    Program.halts_agrees (by simp [Stmt.branchedAll, Stmt.branched, branched]) hcompile
  rw [Program.run_of_halts hcompile hhalts]
  rcases arithmetic.evaluate_program with ⟨number, world, hworld, hlast, hdivisors, hnumber⟩ |
    ⟨world, hworld⟩ | ⟨world, hworld, hvanishes⟩
  · rw [hworld] at hagrees
    obtain ⟨machine, _, rfl, hpopped, hcompiled⟩ := hagrees.popped hlast
    cases hcompiled
    refine ⟨?_, fun _ ↦ ⟨⟨?_, ?_⟩, fun _ ↦ ⟨machine, number, rfl, hpopped, fun other ↦ ?_⟩⟩⟩
    · rintro _ _ ⟨⟩
    · rintro ⟨_, ⟨⟩⟩
    · rintro ⟨divisor, hmem, hvanishes⟩
      exact absurd hvanishes (hdivisors divisor hmem)
    · constructor
      · intro hother
        rw [← Int64.toInt_inj, toInt_eq_bmod hother, toInt_eq_bmod hnumber]
      · rintro rfl
        exact hnumber
  · rw [hworld] at hagrees
    obtain ⟨machine, rfl⟩ := hagrees.failure
    refine ⟨?_, fun hroom ↦ absurd rfl (hroom machine)⟩
    rintro _ _ ⟨⟩
    exact .inl rfl
  · rw [hworld] at hagrees
    obtain ⟨machine, rfl⟩ := hagrees.failure
    refine ⟨?_, fun _ ↦ ⟨⟨fun _ ↦ hvanishes, fun _ ↦ ⟨machine, rfl⟩⟩, fun hdivisors ↦ ?_⟩⟩
    · rintro _ _ ⟨⟩
      exact .inr rfl
    · obtain ⟨divisor, hmem, hzero⟩ := hvanishes
      exact absurd hzero (hdivisors divisor hmem)

/-- The least integer divided by -1, times 3, minus 5. -/
def lowest : Arithmetic :=
  .binary .difference
    (.binary .product
      (.binary .quotient (.literal Int64.minValue) (.negation (.literal 1))) (.literal 3))
    (.literal 5)

theorem run_congruent_lowest : ∃ builder,
    Builder.new.add ⟨[.eval lowest.expr]⟩ = (none, builder) ∧
    (∀ machine, Run.run (Machine.new builder.bytecode #[] 0) ≠ .error .stackOverflow machine) ∧
    (∀ divisor ∈ lowest.divisors, ¬divisor.Vanishes) ∧
    ∃ machine, Run.run (Machine.new builder.bytecode #[] 0) = .ok () machine ∧
      machine.lastPopped = some (.integer 9223372036854775803) := by
  have hcompiles : (Builder.new.add ⟨[.eval lowest.expr]⟩).1 = none := by decide +kernel
  have hends : passes (fun _ _ ↦ true)
      (Run.run (Machine.new (Builder.new.add ⟨[.eval lowest.expr]⟩).2.bytecode #[] 0)) := by
    decide +kernel
  rcases hcompile : Builder.new.add ⟨[.eval lowest.expr]⟩ with ⟨error?, builder⟩
  rw [hcompile] at hcompiles hends
  subst hcompiles
  have hroom : ∀ machine,
      Run.run (Machine.new builder.bytecode #[] 0) ≠ .error .stackOverflow machine := by
    intro machine hrun
    rw [hrun] at hends
    cases hends
  have hdivisors : ∀ divisor ∈ lowest.divisors, ¬divisor.Vanishes := by
    intro divisor hmem
    obtain rfl : divisor = .negation (.literal 1) := by simpa [lowest, divisors] using hmem
    unfold Vanishes
    decide
  obtain ⟨machine, value, hrun, hpopped, hvalue⟩ :=
    ((run_congruent hcompile).2 hroom).2 hdivisors
  have hnumber : 9223372036854775803 = value := (hvalue _).mp (by decide)
  exact ⟨builder, rfl, hroom, hdivisors, machine, hrun, hnumber ▸ hpopped⟩

end Arithmetic

end StackScript
