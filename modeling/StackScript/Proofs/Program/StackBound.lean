import StackScript.Proofs.Machine.Straight
import StackScript.Proofs.Program.Correct
import StackScript.Proofs.Program.Room
import StackScript.Proofs.Session.ControlFlow

/-!
The bound of the stack is exact. A program without functions whose statements need no more slots
than there are never runs out of them, and one that is run in order and needs more comes to the end
of the stack, unless it fails before that (`Program.stack_bound_exact`). The one half is told by
evaluation, which comes to the same end as the run, and the other by the code, whose first
instruction too many stands where the stack is full.
-/

set_option autoImplicit false
set_option relaxedAutoImplicit false

namespace StackScript

open Instruction (encodeAll peak rise)

/-- A run reports what evaluation fails with. -/
theorem Run.Agrees.error {constants : Array Value} {error : RunError} {machine : Machine}
    {evaluated : EStateM.Result Stop World Unit}
    (h : Run.Agrees constants (.error error machine) evaluated) :
    ∃ world, evaluated = .error (.failed error) world := by
  cases h with
  | failed => exact ⟨_, rfl⟩

/-- Before the first instruction there are no operands. -/
theorem Machine.behind_new {bytecode : Bytecode} {code : List Instruction}
    (hcode : bytecode.code.toList = encodeAll code) :
    (Machine.new bytecode #[] 0).StandsBehind code [] := by
  refine ⟨?_, rfl, rfl, [], rfl, ⟨Array.size_replicate, List.nil_prefix⟩, rfl⟩
  exact Array.toList_inj.mp hcode

namespace Program

variable {program : Program} {builder : Builder}

/-- A program without functions has none among its constants. -/
theorem routineFree_of_add (hbodies : Stmt.bodiesAll program.statements = [])
    (hadd : Builder.new.add program = (none, builder)) : RoutineFree builder.constants := by
  have hnone : ∀ body ∈ Stmt.bodiesAll program.statements, False := by
    rw [hbodies]
    exact fun body hbody ↦ List.not_mem_nil hbody
  have hdrawn := @Session.drawn_compile _ {} program drawn_empty hnone
  rw [Session.compile_of_ok {} hadd] at hdrawn
  intro entry label routine hentry
  obtain ⟨body, hallowed, _⟩ := hdrawn entry label routine hentry
  exact hallowed

/-- The machine for a program is in order, and so is the code it stands before. -/
theorem sound_start (hadd : Builder.new.add program = (none, builder)) :
    let start := Machine.new builder.bytecode #[] 0
    ∃ limits code, limits.locals = 0 ∧ ValidPool builder.constants limits.globals ∧
      CodeWithin builder.constants start.longestCode ∧
      start.Sound builder.constants limits.globals start.longestCode ∧
      builder.bytecode.code.toList = encodeAll code ∧
      Instruction.WellFormed builder.constants limits 0 code := by
  intro start
  have hcompiled := Session.sound_new.compile program
  rw [Session.compile_of_ok {} hadd] at hcompiled
  obtain ⟨hafter, _, hconstants, code, hcode, hwell⟩ := hcompiled
  have hlocals : builder.scopes.limits.locals = 0 := by
    have houter : builder.scopes.outer = [] := hafter.outer
    rw [Scopes.limits, houter]
    rfl
  exact ⟨builder.scopes.limits, code, hlocals, hafter.draft.constants, start.le_longestCode.2,
    hafter.sound_new hconstants hcode hwell, hcode, hwell⟩

/-- With room for each statement the stack never overflows. -/
theorem ne_stackOverflow (hbodies : Stmt.bodiesAll program.statements = [])
    (hbranched : Stmt.branchedAll program.statements)
    (hadd : Builder.new.add program = (none, builder))
    (hroom : ∀ stmt ∈ program.statements, stmt.need ≤ stackSize) {error : RunError}
    {after : Machine} (hrun : Run.run (Machine.new builder.bytecode #[] 0) = .error error after) :
    error ≠ .stackOverflow := by
  rintro rfl
  obtain ⟨count, result, hhalts, hagrees⟩ := Program.halts_agrees hbranched hadd
  rw [← Program.run_of_halts hadd hhalts, hrun] at hagrees
  obtain ⟨world, hevaluate⟩ := hagrees.error
  exact Program.evaluate_fits hbodies hroom world hevaluate

/-- Code that is run in order and needs too much room has a first instruction for which there is
none left. -/
theorem exists_overflowing (hbodies : Stmt.bodiesAll program.statements = [])
    (hstraight : Stmt.straightAll program.statements)
    (hexceeds : stackSize < Stmt.needAll program.statements)
    (hadd : Builder.new.add program = (none, builder)) :
    ∃ first instruction rest,
      builder.bytecode.code.toList = encodeAll (first ++ instruction :: rest) ∧
      (∀ each ∈ first ++ instruction :: rest, each.Fits ∧ each.isStraight) ∧
      Instruction.Fed 0 first ∧ peak 0 first ≤ stackSize ∧ rise 0 first = stackSize ∧
      instruction.takes = 0 ∧ instruction.leaves = 1 := by
  obtain ⟨code, hlaid, hcode, hfits⟩ := Program.laid_of_add hadd
  have hclimbs := Stmt.climbsAll hstraight hbodies hlaid
  have hpeak := hclimbs.peak 0
  rw [Nat.zero_add] at hpeak
  obtain ⟨first, instruction, rest, hparts, hlimit⟩ :=
    Instruction.exists_exceeding (by decide) (Nat.zero_le stackSize) (hpeak ▸ hexceeds)
  have hfed := hclimbs.fed 0
  rw [hparts] at hcode hfits hfed
  refine ⟨first, instruction, rest, congrArg Array.toList hcode, fun each hmem ↦ ?_,
    (Instruction.fed_append.mp hfed).1, hlimit⟩
  exact ⟨hfits each hmem, hclimbs.straight each (hparts ▸ hmem)⟩

/-- A run of straight code fails at an instruction for which there is no room left, unless it fails
before it. -/
theorem fails_at (hbodies : Stmt.bodiesAll program.statements = [])
    (hadd : Builder.new.add program = (none, builder)) {first rest : List Instruction}
    {instruction : Instruction}
    (hcode : builder.bytecode.code.toList = encodeAll (first ++ instruction :: rest))
    (hplain : ∀ each ∈ first ++ instruction :: rest, each.Fits ∧ each.isStraight)
    (hfed : Instruction.Fed 0 first) (hfull : rise 0 first = stackSize)
    (htakes : instruction.takes = 0) (hleaves : instruction.leaves = 1) :
    ∃ count middle error after, count ≤ first.length ∧
      (Machine.new builder.bytecode #[] 0).Reaches count middle ∧
      Run.step middle = .error error after ∧
      (count = first.length → error = .stackOverflow ∨
        ∃ slot, instruction = ⟨.getGlobal, [slot]⟩ ∧ error = .uninitializedGlobal slot) := by
  obtain ⟨limits, whole, hlimits, hpool, hlongest, hsound, hwhole, hwell⟩ := sound_start hadd
  obtain rfl : first ++ instruction :: rest = whole :=
    Instruction.eq_of_encodeAll_eq (fun each hmem ↦ (hplain each hmem).1) hwell.fits
      (hcode.symm.trans hwhole)
  obtain ⟨hfits, hstraight⟩ := hplain instruction (by simp)
  have hfirst : ∀ each ∈ first, each.isStraight :=
    fun each hmem ↦ (hplain each (List.mem_append_left _ hmem)).2
  have hbegin : (Machine.new builder.bytecode #[] 0).StandsBehind
      ([] ++ first ++ instruction :: rest) [] := Machine.behind_new hcode
  have hbegun : Instruction.Fed (rise 0 []) first := hfed
  rcases hbegin.reaches hpool hlongest (routineFree_of_add hbodies hadd) hlimits hwell hsound hfirst
    hbegun with hearly | ⟨middle, hreaches, hmiddle⟩
  · obtain ⟨count, middle, error, after, hcount, hreaches, hstep⟩ := hearly
    exact ⟨count, middle, error, after, Nat.le_of_lt hcount, hreaches, hstep,
      fun hsame ↦ absurd hsame (Nat.ne_of_lt hcount)⟩
  · have hbounds := (Machine.inBounds_new builder.bytecode #[] 0).reaches hreaches
    obtain ⟨error, after, hstep, hreported⟩ := hmiddle.fails hpool hlongest
      (hsound.reaches hpool hlongest hreaches) hbounds hfits hstraight htakes hleaves hfull
    exact ⟨first.length, middle, error, after, Nat.le_refl _, hreaches, hstep, fun _ ↦ hreported⟩

/-- Spec §4.4, the stack has a fixed capacity. Assumes: the program has no functions (`hbodies`),
its blocks yield values where they must (`hbranched`), and a new builder takes it (`hadd`). If none
of its statements needs more than there is on the stack, the run never overflows it. If the program
is run in order and some statement needs more, a first instruction would exceed the stack: it is
where the run fails, for want of room or as it reads a global that is not set, unless the run fails
before it. -/
theorem stack_bound_exact (hbodies : Stmt.bodiesAll program.statements = [])
    (hbranched : Stmt.branchedAll program.statements)
    (hadd : Builder.new.add program = (none, builder)) :
    let start := Machine.new builder.bytecode #[] 0
    ((∀ stmt ∈ program.statements, stmt.need ≤ stackSize) →
      ∀ error after, Run.run start = .error error after → error ≠ .stackOverflow) ∧
    (Stmt.straightAll program.statements → (∃ stmt ∈ program.statements, stackSize < stmt.need) →
      ∃ first instruction rest,
        builder.bytecode.code.toList = encodeAll (first ++ instruction :: rest) ∧
        peak 0 first ≤ stackSize ∧ rise 0 first = stackSize ∧
        instruction.takes = 0 ∧ instruction.leaves = 1 ∧
        ∃ count middle error after, count ≤ first.length ∧ start.Reaches count middle ∧
          Run.step middle = .error error after ∧ Run.run start = .error error after ∧
          (count = first.length → error = .stackOverflow ∨
            ∃ slot, instruction = ⟨.getGlobal, [slot]⟩ ∧ error = .uninitializedGlobal slot)) := by
  intro start
  constructor
  · intro hroom error after hrun
    exact ne_stackOverflow hbodies hbranched hadd hroom hrun
  · intro hstraight hexceeds
    have hneed : stackSize < Stmt.needAll program.statements := by
      by_contra hle
      obtain ⟨stmt, hmem, hlt⟩ := hexceeds
      exact absurd (Stmt.needAll_le_iff.mp (Nat.le_of_not_lt hle) stmt hmem) (Nat.not_le_of_lt hlt)
    obtain ⟨first, instruction, rest, hcode, hplain, hfed, hpeak, hfull, htakes, hleaves⟩ :=
      exists_overflowing hbodies hstraight hneed hadd
    obtain ⟨count, middle, error, after, hcount, hreaches, hstep, hreported⟩ :=
      fails_at hbodies hadd hcode hplain hfed hfull htakes hleaves
    have hrun := Program.run_of_halts hadd ⟨middle, hreaches, .failed hstep⟩
    exact ⟨first, instruction, rest, hcode, hpeak, hfull, htakes, hleaves, count, middle, error,
      after, hcount, hreaches, hstep, hrun, hreported⟩

theorem exists_of_add_eq_none (h : (Builder.new.add program).1 = none) :
    ∃ builder, Builder.new.add program = (none, builder) :=
  ⟨_, Prod.ext h rfl⟩

/-- An array of so many values, which are all on the stack before it is built. -/
def wide (width : Nat) : Program where
  statements := [.eval (.array (List.replicate width (.bool true)))]

theorem needFrom_replicate (held width : Nat) :
    max held (Expr.needFrom held (List.replicate width (.bool true))) = held + width := by
  induction width generalizing held with
  | zero => exact Nat.max_zero held
  | succ width ih =>
    have hrest := ih (held + 1)
    rw [List.replicate_succ, Expr.needFrom, Expr.need]
    omega

theorem need_wide (width : Nat) :
    ∀ stmt ∈ (wide width).statements, stmt.need = max 1 width := by
  intro stmt hmem
  obtain rfl := List.mem_singleton.mp hmem
  have hwidth := needFrom_replicate 0 width
  rw [Nat.zero_max, Nat.zero_add] at hwidth
  rw [Stmt.need, Expr.need, hwidth]

theorem evaluateAll_replicate {call : Caller} {activation : Activation} {held width : Nat}
    (hheld : held ≤ stackSize) (hexceeds : stackSize < held + width) (context : Context)
    (world : World) :
    Expr.evaluateAll call activation (List.replicate width (.bool true)) context held world =
      .error (.failed .stackOverflow) world := by
  induction width generalizing held with
  | zero => exact absurd hheld (Nat.not_le_of_lt hexceeds)
  | succ width ih =>
    rw [List.replicate_succ, Expr.evaluateAll, Expr.evaluate]
    by_cases hfull : stackSize ≤ held
    · exact bind_of_error (by rw [Eval.hold, if_pos hfull]; rfl)
    · have hfirst : Eval.hold held (.boolean true) world = .ok (.boolean true) world := by
        rw [Eval.hold, if_neg hfull]
        rfl
      rw [bind_of_ok hfirst]
      exact bind_of_error (ih (Nat.lt_of_not_le hfull) (by omega))

theorem evaluate_wide {width : Nat} (hwidth : stackSize < width) :
    (wide width).evaluate = .error (.failed .stackOverflow) {} := by
  have hitems := @evaluateAll_replicate (Eval.call (frameLimit - 1)) {} 0 width
    (Nat.zero_le _) (by rwa [Nat.zero_add]) .top {}
  have hstatement : Stmt.evaluateAll (Eval.call (frameLimit - 1)) {} (wide width).statements .top 0
      {} = .error (.failed .stackOverflow) {} := by
    rw [wide, Stmt.evaluateAll, Stmt.evaluate, Expr.evaluate]
    exact bind_of_error (bind_of_error (bind_of_error hitems))
  rw [evaluate, hstatement]

/-- An array of 2048 values does not overflow the stack, and one of 2049 values does. -/
theorem stack_bound_exact_wide :
    (∃ builder, Builder.new.add (wide 2048) = (none, builder) ∧
      ∀ error after, Run.run (Machine.new builder.bytecode #[] 0) = .error error after →
        error ≠ .stackOverflow) ∧
    ∃ builder, Builder.new.add (wide 2049) = (none, builder) ∧
      ∃ after, Run.run (Machine.new builder.bytecode #[] 0) = .error .stackOverflow after := by
  constructor
  · have hnone : (Builder.new.add (wide 2048)).1 = none := by decide +kernel
    obtain ⟨builder, hadd⟩ := exists_of_add_eq_none hnone
    have hbodies : Stmt.bodiesAll (wide 2048).statements = [] := by decide +kernel
    have hroom : ∀ stmt ∈ (wide 2048).statements, stmt.need ≤ stackSize :=
      fun stmt hmem ↦ Nat.le_of_eq (need_wide 2048 stmt hmem)
    exact ⟨builder, hadd, (stack_bound_exact hbodies (by decide +kernel) hadd).1 hroom⟩
  · have hnone : (Builder.new.add (wide 2049)).1 = none := by decide +kernel
    obtain ⟨builder, hadd⟩ := exists_of_add_eq_none hnone
    have hbodies : Stmt.bodiesAll (wide 2049).statements = [] := by decide +kernel
    have hbranched : Stmt.branchedAll (wide 2049).statements := by decide +kernel
    have hlarge : stackSize < 2049 := by decide
    have hexceeds : ∃ stmt ∈ (wide 2049).statements, stackSize < stmt.need := by
      refine ⟨_, List.mem_singleton_self _, ?_⟩
      rw [need_wide 2049 _ (List.mem_singleton_self _)]
      exact hlarge
    obtain ⟨_, _, _, _, _, _, _, _, _, _, error, after, _, _, _, hrun, _⟩ :=
      (stack_bound_exact hbodies hbranched hadd).2 (by decide +kernel) hexceeds
    -- evaluation tells which error it is
    obtain ⟨count, result, hhalts, hagrees⟩ := Program.halts_agrees hbranched hadd
    rw [← Program.run_of_halts hadd hhalts, hrun, evaluate_wide hlarge] at hagrees
    obtain ⟨last, hlast⟩ := hagrees.failure
    cases hlast
    exact ⟨builder, hadd, after, hrun⟩

end Program

end StackScript
