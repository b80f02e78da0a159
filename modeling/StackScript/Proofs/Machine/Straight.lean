import StackScript.Proofs.Machine.Bounds
import StackScript.Proofs.Machine.Halting
import StackScript.Proofs.Machine.Operands
import StackScript.Proofs.Program.Peak

/-!
Runs of straight code. Where no function is among the constants nothing is entered, so from a
machine that stands behind the first instructions the next one leads behind one more of them, with
the operands that the instructions leave, unless it fails (`Machine.StandsBehind.step`). An
instruction that only adds an operand fails where the stack is full (`Machine.StandsBehind.fails`).
-/

set_option autoImplicit false
set_option relaxedAutoImplicit false

namespace StackScript

open Instruction (size encodeAll Fed rise)

/-- No function is among the constants. -/
def RoutineFree (constants : Array Value) : Prop :=
  ∀ (entry : Nat) (label : Label) (routine : Routine),
    constants[entry]? ≠ some (.routine label routine)

theorem Instruction.isStraight_onward {instruction : Instruction} (h : instruction.isStraight) :
    instruction.leadsOn ∧ instruction.target? = none := by
  obtain ⟨opcode, operands⟩ := instruction
  cases opcode
  case jump | jumpNotTruthy | returnValue | ret => cases h
  all_goals exact ⟨rfl, rfl⟩

namespace Run

open Machine

variable {constants : Array Value} {globals : Nat} {machine : Machine}

/-! ### Calls -/

/-- Without functions all that can be called are the provided ones. -/
theorem trades_call (hfree : RoutineFree constants) (hholds : machine.Holds constants globals)
    {kept count : Nat} (h : machine.Stacked [] (kept + (count + 1))) :
    Trades (call count) machine fun _ after ↦ after.Stacked [] (kept + 1) := by
  have hbuiltin : machine.Stacked [] (kept + 1 + count) := by
    rwa [Nat.add_assoc, Nat.add_comm 1]
  obtain ⟨operands, hlength, hshows, hsp⟩ := h
  obtain ⟨callee, arguments, hdrop⟩ : ∃ callee arguments,
      operands.drop kept = callee :: arguments :=
    List.exists_cons_of_length_pos (by rw [List.length_drop]; omega)
  have hsplit : operands = operands.take kept ++ callee :: arguments := by
    rw [← hdrop, List.take_append_drop]
  have hcount : arguments.length = count := by
    have hall := congrArg List.length hdrop
    rw [List.length_drop, List.length_cons] at hall
    omega
  have hkept : ((operands.take kept).map some).length = kept := by
    rw [List.length_map, List.length_take]
    omega
  rw [List.nil_append, hsplit, List.map_append, List.map_cons] at hshows
  have hcall := call_of_shows hshows (by rw [hkept, hcount, hsp, List.length_nil, Nat.zero_add])
  rw [hcount] at hcall
  refine Ends.of_eq hcall ?_
  have hcallee := hholds.onStack _ callee hshows.getElem?_length
  cases hcallee with
  | closure hroutine _ =>
    obtain ⟨entry, label, hentry⟩ := hroutine.entry
    exact absurd hentry (hfree entry label _)
  | builtin builtin => exact trades_callBuiltin hbuiltin builtin
  | _ => exact .throw nofun

/-! ### Full stacks -/

/-- The action fails, and that for want of room, unless it reads a global that is not set or what
there is not. -/
def Chokes {α : Type} (instruction : Instruction) (action : Run α) (machine : Machine) : Prop :=
  Ends action machine (fun _ _ ↦ False) fun error _ ↦
    (error = .stackOverflow ∨
      ∃ slot, instruction = ⟨.getGlobal, [slot]⟩ ∧ error = .uninitializedGlobal slot) ∨
    error.isMalformed ∨ error = .outOfRange

variable {α : Type} {instruction : Instruction}

theorem Chokes.of_error {action : Run α} {error : RunError} {after : Machine}
    (h : action machine = .error error after) (herror : error.isMalformed) :
    Chokes instruction action machine :=
  Ends.of_error h (.inr (.inl herror))

theorem Chokes.goOn {action : Run Unit} (h : Chokes instruction action machine) :
    Chokes instruction (goOn action) machine :=
  Ends.bind h fun _ _ hdone ↦ hdone.elim

/-- Nothing is taken for an array or a hash without elements. -/
theorem takeTop_zero : takeTop 0 machine = .ok [] machine := by
  unfold takeTop
  rw [getSp_bind]
  dsimp only
  rw [check_apply, if_neg (Nat.not_lt_zero _)]
  rfl

variable (hfull : stackSize ≤ machine.sp)

include hfull

theorem chokes_push (value : Value) : Chokes instruction (push value) machine :=
  Ends.of_error (push_of_full hfull value) (.inl (.inl rfl))

/-- A value with a label of its own. -/
theorem chokes_pushFresh (value : Label → Value) :
    Chokes instruction (do push (value (← freshLabel))) machine := by
  have hpush : Chokes instruction (push (value (.heap machine.serial)))
      { machine with serial := machine.serial + 1 } := by
    apply chokes_push
    exact hfull
  exact Ends.of_eq_from (bind_of_ok rfl) hpush

theorem chokes_loadConstant (entry : Nat) : Chokes instruction (loadConstant entry) machine := by
  cases hentry : machine.constants[entry]? with
  | none =>
    have herror : loadConstant entry machine = .error (.invalidConstant entry) machine := by
      simp only [loadConstant, constant?, bind, EStateM.bind, hentry]
      rfl
    exact .of_error herror rfl
  | some value =>
    have hsame : loadConstant entry machine = push value machine := by
      simp only [loadConstant, constant?, bind, EStateM.bind, hentry]
    exact Ends.of_eq hsame (chokes_push hfull value)

theorem chokes_loadGlobal (slot : Nat) :
    Chokes ⟨.getGlobal, [slot]⟩ (loadGlobal slot) machine := by
  cases hslot : machine.globals[slot]? with
  | none =>
    have herror : loadGlobal slot machine = .error .outOfRange machine := by
      simp only [loadGlobal, readGlobal, bind, EStateM.bind, hslot]
    exact Ends.of_error herror (.inr (.inr rfl))
  | some content =>
    cases content with
    | none =>
      have herror : loadGlobal slot machine = .error (.uninitializedGlobal slot) machine := by
        simp only [loadGlobal, readGlobal, bind, EStateM.bind, hslot]
        rfl
      exact Ends.of_error herror (.inl (.inr ⟨slot, rfl, rfl⟩))
    | some value =>
      have hsame : loadGlobal slot machine = push value machine := by
        simp only [loadGlobal, readGlobal, bind, EStateM.bind, hslot]
      exact Ends.of_eq hsame (chokes_push hfull value)

theorem chokes_loadBuiltin (index : Nat) : Chokes instruction (loadBuiltin index) machine := by
  unfold loadBuiltin
  cases Builtin.ofIndex? index with
  | none => exact .of_error rfl rfl
  | some builtin => exact chokes_push hfull (.builtin builtin)

/-- An instruction that takes nothing and leaves one operand. -/
theorem chokes_perform (hfits : instruction.Fits) (hstraight : instruction.isStraight)
    (htakes : instruction.takes = 0) (hleaves : instruction.leaves = 1) :
    Chokes instruction (perform instruction) machine := by
  obtain ⟨opcode, operands⟩ := instruction
  cases opcode
  case constant =>
    obtain ⟨entry, rfl, _⟩ := hfits.eq_single rfl
    exact (chokes_loadConstant hfull entry).goOn
  case getGlobal =>
    obtain ⟨slot, rfl, _⟩ := hfits.eq_single rfl
    exact (chokes_loadGlobal hfull slot).goOn
  case getBuiltin =>
    obtain ⟨index, rfl, _⟩ := hfits.eq_single rfl
    exact (chokes_loadBuiltin hfull index).goOn
  case true | false =>
    obtain rfl := hfits.eq_nil rfl
    exact (chokes_push hfull (.boolean _)).goOn
  case null =>
    obtain rfl := hfits.eq_nil rfl
    exact (chokes_push hfull .null).goOn
  case array =>
    obtain ⟨count, rfl, _⟩ := hfits.eq_single rfl
    obtain rfl : count = 0 := htakes
    refine Chokes.goOn (Ends.of_eq_from (bind_of_ok takeTop_zero) ?_)
    exact chokes_pushFresh hfull fun label ↦ .array label []
  case hash =>
    obtain ⟨count, rfl, _⟩ := hfits.eq_single rfl
    obtain rfl : count = 0 := htakes
    refine Chokes.goOn (Ends.of_eq_from (bind_of_ok takeTop_zero) ?_)
    refine Ends.of_eq_from (bind_of_ok rfl) ?_
    exact chokes_pushFresh hfull fun label ↦ .hash label []
  case call =>
    obtain ⟨count, rfl, _⟩ := hfits.eq_single rfl
    exact absurd htakes (Nat.succ_ne_zero count)
  case closure | getLocal | getFree | currentClosure => cases hstraight
  case pop | jump | jumpNotTruthy | setGlobal | setLocal | returnValue | ret => cases hleaves
  all_goals cases htakes

end Run

/-! ### Runs -/

namespace Machine

variable {constants : Array Value} {globals longest : Nat} {limits : Limits}
  {code done first rest : List Instruction} {instruction : Instruction} {machine : Machine}

/-- The machine stands in top-level code behind its first instructions, with the operands that these
leave. -/
structure StandsBehind (code done : List Instruction) (machine : Machine) : Prop where
  code : machine.frame.routine.code = (encodeAll code).toArray
  ip : machine.frame.ip = size done
  base : machine.frame.base = 0
  stacked : machine.Stacked [] (rise 0 done)

theorem StandsBehind.loaded (h : machine.StandsBehind (done ++ instruction :: rest) done) :
    Loaded machine.frame.routine.code machine.frame.ip [instruction] :=
  ⟨encodeAll done, encodeAll rest, by simp [h.code], by simp [h.ip]⟩

theorem StandsBehind.advance {after : Machine} (h : machine.StandsBehind code done)
    (hframe : after.frame = (machine.advance instruction.length).frame)
    (hstacked : after.Stacked [] (rise 0 done - instruction.takes + instruction.leaves)) :
    after.StandsBehind code (done ++ [instruction]) := by
  refine ⟨?_, ?_, ?_, ?_⟩
  · rw [hframe]
    exact h.code
  · rw [hframe, Instruction.size_append]
    exact congrArg (· + instruction.length) h.ip
  · rw [hframe]
    exact h.base
  · rwa [Instruction.rise_append]

/-- The next instruction leads on, unless it fails. -/
theorem StandsBehind.step (hfree : RoutineFree constants) (hlimits : limits.locals = 0)
    (hwell : Instruction.WellFormed constants limits 0 (done ++ instruction :: rest))
    (hholds : machine.Holds constants globals) (hstraight : instruction.isStraight)
    (htakes : instruction.takes ≤ rise 0 done)
    (h : machine.StandsBehind (done ++ instruction :: rest) done) :
    Ends Run.step machine
      (fun progress after ↦ progress = .running ∧
        after.StandsBehind (done ++ instruction :: rest) (done ++ [instruction]))
      fun _ _ ↦ True := by
  have hmem : instruction ∈ done ++ instruction :: rest := by simp
  have hfits := hwell.fits instruction hmem
  obtain ⟨honward, htarget⟩ := instruction.isStraight_onward hstraight
  have hstacked : (machine.advance instruction.length).Stacked []
      (rise 0 done - instruction.takes + instruction.takes) := by
    rw [Nat.sub_add_cancel htakes]
    exact h.stacked
  have htrades : Run.Trades (Run.perform instruction) (machine.advance instruction.length)
      fun progress after ↦ progress = .running ∧
        after.Stacked [] (rise 0 done - instruction.takes + instruction.leaves) := by
    by_cases hcall : instruction.opcode = .call
    · obtain ⟨opcode, operands⟩ := instruction
      obtain rfl : opcode = .call := hcall
      obtain ⟨count, rfl, _⟩ := hfits.eq_single rfl
      exact (Run.trades_call hfree (Run.Holds.advance hholds _) hstacked).goOn
    · have hperform : Run.Trades (Run.perform instruction) (machine.advance instruction.length)
          fun progress after ↦ progress = .running ∧ after.Retains [] [] instruction
            (rise 0 done - instruction.takes + instruction.leaves) :=
        Run.trades_perform hfits (hwell.valid _ hmem) honward htarget hcall h.base hlimits.symm
          hstacked
      refine hperform.mono ?_
      rintro progress after ⟨hprogress, more, hmore, _, hafter⟩
      obtain rfl := List.length_eq_zero_iff.mp hmore
      exact ⟨hprogress, hafter⟩
  refine Ends.of_eq_from (Run.step_eq_perform h.loaded hfits)
    (Ends.mono htrades ?_ fun _ _ _ ↦ trivial)
  rintro progress after ⟨hframe, _, hprogress, hafter⟩
  exact ⟨hprogress, h.advance hframe hafter⟩

/-- An instruction that adds an operand fails where the stack is full. -/
theorem StandsBehind.fails (hpool : ValidPool constants globals)
    (hlongest : CodeWithin constants longest)
    (hsound : machine.Sound constants globals longest) (hbounds : machine.InBounds)
    (hfits : instruction.Fits) (hstraight : instruction.isStraight)
    (htakes : instruction.takes = 0) (hleaves : instruction.leaves = 1)
    (hfull : rise 0 done = stackSize)
    (h : machine.StandsBehind (done ++ instruction :: rest) done) :
    ∃ error after, Run.step machine = .error error after ∧
      (error = .stackOverflow ∨
        ∃ slot, instruction = ⟨.getGlobal, [slot]⟩ ∧ error = .uninitializedGlobal slot) := by
  have hsp : stackSize ≤ (machine.advance instruction.length).sp := by
    obtain ⟨_, _, _, hsp⟩ := h.stacked
    rw [hfull, List.length_nil, Nat.zero_add] at hsp
    exact Nat.le_of_eq hsp.symm
  have hchokes := Run.chokes_perform hsp hfits hstraight htakes hleaves
  have hordinary := hsound.step hpool hlongest
  have hreported := Run.bounded_step hbounds
  unfold Run.Chokes Ends at hchokes
  unfold Ends at hreported
  rw [← Run.step_eq_perform h.loaded hfits] at hchokes
  cases hstep : Run.step machine with
  | ok progress after =>
    rw [hstep] at hchokes
    exact hchokes.elim
  | error error after =>
    rw [hstep] at hchokes hordinary hreported
    refine ⟨error, after, rfl, ?_⟩
    rcases hchokes with hroom | hmalformed | hrange
    · exact hroom
    · exact absurd hordinary.2.1 (by rw [hmalformed]; decide)
    · exact absurd hrange hreported.2.1

theorem InBounds.reaches {count : Nat} {after : Machine} (h : machine.InBounds)
    (hreaches : machine.Reaches count after) : after.InBounds := by
  induction hreaches with
  | here => exact h
  | next hstep _ ih => exact ih ((Run.bounded_step h).at_ok hstep).1

/-- The run comes to the end of a part, unless it fails on the way. -/
theorem StandsBehind.reaches (hpool : ValidPool constants globals)
    (hlongest : CodeWithin constants longest) (hfree : RoutineFree constants)
    (hlimits : limits.locals = 0)
    (hwell : Instruction.WellFormed constants limits 0 (done ++ first ++ rest))
    (hsound : machine.Sound constants globals longest)
    (hstraight : ∀ instruction ∈ first, instruction.isStraight) (hfed : Fed (rise 0 done) first)
    (h : machine.StandsBehind (done ++ first ++ rest) done) :
    (∃ count middle error after, count < first.length ∧ machine.Reaches count middle ∧
      Run.step middle = .error error after) ∨
    ∃ after, machine.Reaches first.length after ∧
      after.StandsBehind (done ++ first ++ rest) (done ++ first) := by
  induction first generalizing done machine with
  | nil =>
    rw [List.append_nil] at h ⊢
    exact .inr ⟨machine, .here machine, h⟩
  | cons instruction others ih =>
    have hcode : done ++ instruction :: others ++ rest =
        done ++ instruction :: (others ++ rest) := List.append_assoc _ _ _
    have hmove : done ++ instruction :: others ++ rest =
        done ++ [instruction] ++ others ++ rest := by simp
    have hstep := StandsBehind.step hfree hlimits (hcode ▸ hwell) hsound.holds
      (hstraight _ List.mem_cons_self) hfed.1 (hcode ▸ h)
    have hnext := hsound.step hpool hlongest
    rw [← hcode, hmove] at hstep
    unfold Ends at hstep
    cases hresult : Run.step machine with
    | error error after =>
      exact .inl ⟨0, machine, error, after, Nat.zero_lt_succ _, .here machine, hresult⟩
    | ok progress middle =>
      rw [hresult] at hstep hnext
      obtain ⟨rfl, hmiddle⟩ := hstep
      have hfed' : Fed (rise 0 (done ++ [instruction])) others := by
        rw [Instruction.rise_append]
        exact hfed.2
      rcases ih (hmove ▸ hwell) hnext.1 (fun _ hmem ↦ hstraight _ (List.mem_cons_of_mem _ hmem))
        hfed' hmiddle with ⟨count, last, error, after, hcount, hreaches, herror⟩ | hend
      · exact .inl ⟨count + 1, last, error, after, Nat.succ_lt_succ hcount,
          .next hresult hreaches, herror⟩
      · obtain ⟨after, hreaches, hafter⟩ := hend
        rw [hmove]
        have hsame : done ++ instruction :: others = done ++ [instruction] ++ others := by simp
        exact .inr ⟨after, .next hresult hreaches, hsame ▸ hafter⟩

end Machine

end StackScript
