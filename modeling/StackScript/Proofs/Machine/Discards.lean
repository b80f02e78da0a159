import StackScript.Proofs.Machine.Turns
import StackScript.Proofs.Program.Bodies
import StackScript.Proofs.Program.Directed

/-!
The value that was discarded last. It changes only where a function stands at the instruction that
discards one (`Machine.Sound.lastPopped_of_reaches`). A run that comes to the end of the top-level
code has come by every instruction at its top level that ends a statement
(`Machine.Sound.comes_by`), and behind the last of them nothing is discarded any more if neither the
rest of the code nor any function discards a value (`Machine.Sound.not_discards`).
-/

set_option autoImplicit false
set_option relaxedAutoImplicit false

namespace StackScript

open Instruction (size encodeAll Below Popless)

/-- The next instruction discards a value. -/
def Machine.Discards (machine : Machine) : Prop :=
  Loaded machine.frame.routine.code machine.frame.ip [⟨.pop, []⟩]

theorem Machine.Discards.ip_lt {machine : Machine} (h : machine.Discards) :
    machine.frame.ip < machine.frame.routine.code.size := by
  obtain ⟨before, after, hcode, hip⟩ := h
  rw [← Array.length_toList, hcode, ← hip]
  simp [Instruction.bytes_eq_cons]

namespace Run

/-- The topmost operand becomes the value that was discarded last. -/
theorem step_pop {machine : Machine} (h : machine.Discards) :
    Ends step machine
      (fun progress after ↦ progress = .running ∧ ∃ value, machine.stackTop = some value ∧
        after.lastPopped = some value ∧ after.callers = machine.callers ∧
        after.frame = (machine.advance 1).frame)
      fun _ _ ↦ True := by
  have hstep : step machine = goOn (do setLastPopped (← pop)) (machine.advance 1) :=
    step_eq_perform h .nil
  refine .of_eq_from hstep ?_
  rw [goOn, bind_assoc]
  refine ((ends_pop (machine.advance 1)).mono (fun _ _ hdone ↦ hdone) fun _ _ _ ↦ trivial).bind ?_
  rintro value _ ⟨htop, stack, sp, rfl⟩
  exact .of_ok rfl ⟨rfl, value, htop, rfl, rfl, rfl⟩

end Run

/-- No function among the constants discards a value. -/
def PoplessPool (constants : Array Value) : Prop :=
  ∀ (entry : Nat) (label : Label) (routine : Routine),
    constants[entry]? = some (.routine label routine) →
      ∃ code, routine.code.toList = encodeAll code ∧ (∀ instruction ∈ code, instruction.Fits) ∧
        Popless code

theorem Routine.CompiledFrom.popless {routine : Routine} {body : List Stmt}
    (h : routine.CompiledFrom body) (hspared : Stmt.sparingBlock body) :
    ∃ code, routine.code.toList = encodeAll code ∧ (∀ instruction ∈ code, instruction.Fits) ∧
      Popless code := by
  obtain ⟨draft, inner, last, hassemble, hcode⟩ := h
  have hall : ∀ other ∈ Stmt.bodiesAll body, True := fun _ _ ↦ trivial
  have hinner := (Stmt.assembleAll_draws body hall .giveBack 0 draft).at_ok hassemble
  have hfits := ((Stmt.assembleAll_levels body False.elim .giveBack 0 0 draft).of_ok
    hassemble).2.fits
  have hreturn : Instruction.Fits ⟨.ret, []⟩ := .nil
  refine ⟨_, hcode, List.forall_mem_append.mpr ⟨hfits, ?_⟩,
    Instruction.popless_append.mpr ⟨hinner.2 hspared (.inl (by decide)), ?_⟩⟩
  · split
    · exact fun _ hmem ↦ nomatch hmem
    · simpa using hreturn
  · split
    · exact fun _ hmem ↦ nomatch hmem
    · exact Instruction.popless_single.mpr (by decide)

theorem Drawn.poplessPool {constants : Array Value}
    (h : Drawn (fun body ↦ Stmt.sparingBlock body) constants) : PoplessPool constants := by
  intro entry label routine hentry
  obtain ⟨body, hspared, hcompiled⟩ := h entry label routine hentry
  exact hcompiled.popless hspared

/-- A part of the code that jumps do not lead out of is left through its last instruction. -/
theorem Frame.Sound.leaves {constants : Array Value} {globals longest ip : Nat} {inFunction : Bool}
    {frame : Frame} {done rest : List Instruction} {last : Instruction}
    (h : frame.Sound constants globals longest inFunction)
    (hcode : frame.routine.code.toList = encodeAll (done ++ [last] ++ rest))
    (hfits : ∀ instruction ∈ done ++ [last] ++ rest, instruction.Fits)
    (hbelow : Below (size (done ++ [last])) (done ++ [last]))
    (hip : frame.ip < size (done ++ [last])) (hleads : frame.LeadsTo ip)
    (hleaves : size (done ++ [last]) ≤ ip) :
    frame.ip = size done ∧ Loaded frame.routine.code frame.ip [last] := by
  obtain ⟨instruction, hloaded, hinstruction, hways⟩ := hleads
  obtain ⟨before, others, hbytes, hplace, hwell⟩ := h.at_loaded hloaded hinstruction
  rw [hplace] at hip hloaded
  have hwhole := Instruction.eq_of_encodeAll_eq hwell.fits hfits (hbytes.symm.trans hcode)
  obtain ⟨skipped, hpart⟩ : ∃ skipped, done ++ [last] = before ++ instruction :: skipped := by
    rcases List.append_eq_append_iff.mp hwhole with ⟨more, hmore, hrest⟩ | ⟨more, rfl, _⟩
    · cases more with
      | nil =>
        rw [hmore, List.append_nil] at hip
        exact absurd hip (Nat.lt_irrefl _)
      | cons next more =>
        rw [List.cons_append, List.cons.injEq] at hrest
        exact ⟨more, by rw [hmore, hrest.1]⟩
    · rw [Instruction.size_append] at hip
      omega
  rcases hways with ⟨-, rfl⟩ | htarget
  · cases skipped with
    | nil =>
      obtain ⟨rfl, hlast⟩ := List.append_inj' hpart rfl
      obtain rfl := List.singleton_inj.mp hlast
      exact ⟨hplace, hplace ▸ hloaded⟩
    | cons next skipped =>
      have hpositive := next.length_pos
      rw [hpart, Instruction.size_append, Instruction.size_cons, Instruction.size_cons] at hleaves
      omega
  · have hwithin := hbelow instruction (hpart ▸ by simp) ip htarget
    omega

namespace Machine

variable {constants : Array Value} {globals longest count : Nat}
  {machine middle after last : Machine}

/-- No other step changes the value that was discarded last. -/
theorem Sound.lastPopped_of_step (h : machine.Sound constants globals longest)
    (hstep : Run.step machine = .ok .running after) (hkeeps : ¬machine.Discards) :
    after.lastPopped = machine.lastPopped := by
  rcases h.frame.instruction with hend | ⟨⟨opcode, operands⟩, hloaded, hfits, -⟩
  · rw [Run.step_at_end hend] at hstep
    split at hstep
    · cases hstep
    · obtain ⟨_, _, hback, hgone⟩ := bind_eq_ok_iff.mp hstep
      cases hgone
      exact (Run.callers_of_returnFromCall hback).2
  · rw [Run.step_eq_perform hloaded hfits] at hstep
    refine (Run.turned_of_perform hloaded hfits hstep).2 ?_
    rintro rfl
    obtain rfl := hfits.eq_nil rfl
    exact hkeeps hloaded

/-- The outermost function stays as it is while it waits. -/
theorem Turned.outermost (h : machine.Turned after) :
    after.outermost = machine.outermost ∨ machine.callers = #[] ∧ ∃ ip,
      machine.frame.LeadsTo ip ∧ after.outermost = { machine.frame with ip := ip } := by
  unfold Machine.outermost
  by_cases hempty : machine.callers = #[]
  · cases h with
    | onward ip hleads hframe hcallers =>
      exact .inr ⟨hempty, ip, hleads, by simp [hcallers, hempty, hframe]⟩
    | called ip hleads hcallers _ =>
      exact .inr ⟨hempty, ip, hleads, by simp [hcallers, hempty]⟩
    | returned hcallers => simp [hcallers] at hempty
  · left
    have hfirst := Array.getElem?_eq_getElem (Array.size_pos_iff.mpr hempty)
    cases h with
    | onward _ _ _ hcallers => rw [hcallers, hfirst]; rfl
    | called _ _ hcallers _ => rw [hcallers, first_push, hfirst]; rfl
    | returned hcallers => rw [hcallers, first_push]

/-- The outermost function never goes back. -/
theorem Sound.outermost_le (h : machine.Sound constants globals longest)
    (hstep : Run.step machine = .ok .running after) :
    machine.outermost.ip ≤ after.outermost.ip ∧
      after.outermost.routine = machine.outermost.routine := by
  rcases (h.turned hstep).outermost with hsame | ⟨hempty, ip, hleads, hmoved⟩
  · rw [hsame]
    exact ⟨Nat.le_refl _, rfl⟩
  · rw [hmoved, outermost_of_empty hempty]
    exact ⟨Nat.le_of_lt (h.frame.lt_of_leadsTo hleads), rfl⟩

/-- The instruction at which the top-level code stands, if no function is at work. -/
theorem Sound.loaded_at_top {code : List Instruction} {instruction : Instruction}
    (h : machine.Sound constants globals longest) (hempty : machine.callers = #[])
    (hcode : machine.outermost.routine.code.toList = encodeAll code)
    (hwhole : ∀ instruction ∈ code, instruction.Fits)
    (hloaded : Loaded machine.frame.routine.code machine.frame.ip [instruction])
    (hfits : instruction.Fits) :
    ∃ done rest, code = done ++ instruction :: rest ∧ machine.frame.ip = size done := by
  obtain ⟨done, rest, hbytes, hip, hwell⟩ := h.frame.at_loaded hloaded hfits
  rw [outermost_of_empty hempty] at hcode
  exact ⟨done, rest, Instruction.eq_of_encodeAll_eq hwhole hwell.fits (hcode.symm.trans hbytes), hip⟩

/-- Where no function discards a value, and the top-level code does not from some place on, nothing
is discarded once it is behind that place. -/
theorem Sound.not_discards {first rest : List Instruction}
    (h : machine.Sound constants globals longest) (hpopless : PoplessPool constants)
    (hcode : machine.outermost.routine.code.toList = encodeAll (first ++ rest))
    (hfits : ∀ instruction ∈ first ++ rest, instruction.Fits) (hrest : Popless rest)
    (hpast : size first ≤ machine.outermost.ip) : ¬machine.Discards := by
  intro hloaded
  by_cases hempty : machine.callers = #[]
  · obtain ⟨done, others, hwhole, hip⟩ := h.loaded_at_top hempty hcode hfits hloaded .nil
    rw [outermost_of_empty hempty, hip] at hpast
    have hsuffix := Instruction.suffix_of_size_le hwhole hpast
    exact hrest _ (hsuffix.subset List.mem_cons_self) rfl
  · have hcalled : (!machine.callers.isEmpty) = true := by simpa using hempty
    obtain ⟨entry, label, hentry⟩ := (h.frame.held hcalled).entry
    obtain ⟨code, hsame, hcodeFits, hnone⟩ := hpopless entry label _ hentry
    obtain ⟨done, others, hbytes, -, hwell⟩ := h.frame.at_loaded hloaded .nil
    obtain rfl := Instruction.eq_of_encodeAll_eq hcodeFits hwell.fits (hsame.symm.trans hbytes)
    exact hnone _ (List.mem_append_right done List.mem_cons_self) rfl

section Runs

variable (hpool : ValidPool constants globals) (hlongest : CodeWithin constants longest)

include hpool hlongest

theorem Sound.outermost_reaches (h : machine.Sound constants globals longest)
    (hreaches : machine.Reaches count last) :
    machine.outermost.ip ≤ last.outermost.ip ∧
      last.outermost.routine = machine.outermost.routine := by
  induction hreaches with
  | here _ => exact ⟨Nat.le_refl _, rfl⟩
  | next hstep _ ih =>
    obtain ⟨hfirst, hsame⟩ := h.outermost_le hstep
    obtain ⟨hrest, hlast⟩ := ih (h.next hpool hlongest hstep)
    exact ⟨Nat.le_trans hfirst hrest, hlast.trans hsame⟩

theorem Sound.lastPopped_of_reaches (h : machine.Sound constants globals longest)
    (hreaches : machine.Reaches count last)
    (hkeeps : ∀ more later, machine.Reaches more later → ¬later.Discards) :
    last.lastPopped = machine.lastPopped := by
  induction hreaches with
  | here _ => rfl
  | next hstep _ ih =>
    rw [ih (h.next hpool hlongest hstep) fun more later hlater ↦
      hkeeps (more + 1) later (.next hstep hlater)]
    exact h.lastPopped_of_step hstep (hkeeps 0 _ (.here _))

/-! ### Coming by -/

/-- Where the outermost function comes to the end of a part of its code, and the part ends with an
instruction that discards a value and is not left by jumps, it does so through that instruction. -/
theorem Sound.comes_by {done rest : List Instruction}
    (h : machine.Sound constants globals longest)
    (hcode : machine.outermost.routine.code.toList =
      encodeAll (done ++ [⟨.pop, []⟩] ++ rest))
    (hfits : ∀ instruction ∈ done ++ [⟨.pop, []⟩] ++ rest, instruction.Fits)
    (hbelow : Below (size (done ++ [⟨.pop, []⟩])) (done ++ [⟨.pop, []⟩]))
    (hip : machine.outermost.ip < size (done ++ [⟨.pop, []⟩]))
    (hreaches : machine.Reaches count last)
    (hlast : size (done ++ [⟨.pop, []⟩]) ≤ last.outermost.ip) :
    ∃ steps before, machine.Reaches steps before ∧ before.callers = #[] ∧
      before.frame.ip = size done ∧ before.Discards ∧
      ∃ middle more, Run.step before = .ok .running middle ∧ middle.Reaches more last := by
  induction hreaches with
  | here _ => omega
  | @next _ machine middle _ hstep hrest ih =>
    have hmiddle := h.next hpool hlongest hstep
    have hsame := (h.outermost_le hstep).2
    by_cases hwithin : middle.outermost.ip < size (done ++ [⟨.pop, []⟩])
    · obtain ⟨steps, before, hbefore, hplace⟩ := ih hmiddle (hsame ▸ hcode) hwithin hlast
      exact ⟨steps + 1, before, .next hstep hbefore, hplace⟩
    rcases (h.turned hstep).outermost with hwaits | ⟨hempty, ip, hleads, hmoved⟩
    · rw [hwaits] at hwithin
      exact absurd hip hwithin
    rw [outermost_of_empty hempty] at hcode hip
    obtain ⟨hplace, hloaded⟩ := h.frame.leaves hcode hfits hbelow hip hleads (by
      rw [hmoved] at hwithin
      exact Nat.le_of_not_lt hwithin)
    exact ⟨0, machine, .here _, hempty, hplace, hloaded, middle, _, hstep, hrest⟩

end Runs

end Machine

end StackScript
