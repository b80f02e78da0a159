import StackScript.Proofs.Machine.Locals
import StackScript.Proofs.Session.Layers
import StackScript.Proofs.Session.Pieces

/-!
What calls leave behind on the stack cannot be observed. At any moment of a run it may be replaced
by anything, and the run goes on to the same result; and a local that was not set since its function
was called cannot be read, if all blocks yield values (`Session.Reachable.forgets`). Where one does
not, an operand may come to lie in the slot of a local (`Session.sunken_reads`).
-/

set_option autoImplicit false
set_option relaxedAutoImplicit false

namespace StackScript

open Instruction (encodeAll)

/-! ### Runs step by step -/

namespace Machine

/-- The machine after so many steps, none of which sets a local of the function with so many callers
or ends it. -/
def walk? (depth : Nat) : Nat → Machine → Option Machine
  | 0, machine => some machine
  | count + 1, machine =>
    match Run.step machine with
    | .ok .running after =>
      if depth ≤ after.callers.size ∧ (machine.callers.size = depth →
          machine.frame.routine.code[machine.frame.ip]? ≠ some Opcode.setLocal.toByte) then
        walk? depth count after
      else none
    | _ => none

theorem neverSets_of_walk {depth count : Nat} {machine last : Machine}
    (h : walk? depth count machine = some last) (index : Nat) :
    NeverSets depth index machine last := by
  induction count generalizing machine with
  | zero =>
    cases h
    exact .here _
  | succ count ih =>
    rw [walk?] at h
    split at h
    · next after hstep =>
      split at h
      · next hkeeps =>
        refine .next hstep hkeeps.1 (fun hdepth hloaded ↦ ?_) (ih h)
        refine hkeeps.2 hdepth ?_
        simpa [Instruction.bytes_eq_cons] using hloaded.getElem? (Instruction.length_pos _)
      · cases h
    · cases h

/-- The machine that is about to read an unset local, in a function that is called after some steps.
-/
def reading? (skipped count index : Nat) (start : Machine) : Option Machine :=
  match walk? 0 skipped start with
  | none => none
  | some before =>
    match Run.step before with
    | .ok .running entered =>
      match walk? entered.callers.size count entered with
      | none => none
      | some machine =>
        if before.callers.size < entered.callers.size ∧
            machine.callers.size = entered.callers.size ∧
            encodeAll [⟨.getLocal, [index]⟩] <+:
              machine.frame.routine.code.toList.drop machine.frame.ip ∧
            index < 256 ∧ machine.frame.routine.parameters ≤ index then
          some machine
        else none
    | _ => none

theorem readsUnset_of_reading {skipped count index : Nat} {start machine : Machine}
    (h : reading? skipped count index start = some machine) : start.ReadsUnset index machine := by
  unfold reading? at h
  split at h
  · cases h
  next before hbefore =>
  split at h
  swap
  · cases h
  next entered hcall =>
  split at h
  · cases h
  next last hlast =>
  split at h
  swap
  · cases h
  next hchecks =>
  cases h
  obtain ⟨hdeeper, hback, ⟨rest, hrest⟩, hfits, hparameters⟩ := hchecks
  obtain ⟨steps, hreaches⟩ := (neverSets_of_walk hbefore 0).reaches
  refine .intro hreaches hcall hdeeper (neverSets_of_walk hlast index) hback ?_ hfits hparameters
  refine ⟨machine.frame.routine.code.toList.take machine.frame.ip, rest, ?_, ?_⟩
  · rw [List.append_assoc, hrest, List.take_append_drop]
  · have hlength := congrArg List.length hrest
    have hpositive := Instruction.length_pos ⟨.getLocal, [index]⟩
    rw [List.length_append, List.length_drop, Instruction.length_encodeAll,
      Instruction.size_cons] at hlength
    rw [List.length_take]
    omega

end Machine

/-! ### Pieces -/

namespace Session

variable {session : Session} {program : Program} {code : List Instruction} {draft : Draft}

theorem layered_start (hbranched : Stmt.branchedAll program.statements)
    (hcode : Stmt.assembleAll program.statements .discard 0
      (Builder.resume session.scopes session.constants).draft = .ok code draft) :
    (session.start code draft).Layered #[] [] := by
  have hcompile : session.compile program =
      (.ok ⟨(encodeAll code).toArray, draft.constants⟩, session.withDraft draft) := by
    rw [compile_eq, hcode]
  exact layered_new hbranched hcompile _ _

/-- Spec §4.4, slots above the arguments start empty. Assumes: the session is reachable, the program
compiles in it to this code (`hcode`), and its run comes to the machine (`hreaches`). What stands in
the slots above all that is in use does not matter for the rest of the run. If, moreover, all blocks
yield values, in the session so far and in the program, then a local that was not set since its
frame was entered cannot be read: the run fails there. -/
theorem Reachable.forgets (h : session.Reachable)
    (hcode : Stmt.assembleAll program.statements .discard 0
      (Builder.resume session.scopes session.constants).draft = .ok code draft)
    {count : Nat} {machine : Machine}
    (hreaches : (session.start code draft).Reaches count machine) :
    (∀ stack, machine.Spares stack → ∃ steps result same,
      machine.Halts steps result ∧ Machine.Halts steps { machine with stack := stack } same ∧
        Machine.SameButStack result same) ∧
    (session.Branched → Stmt.branchedAll program.statements →
      ∀ index, (session.start code draft).ReadsUnset index machine →
        ∃ after, Run.step machine = .error (.uninitializedLocal index) after) := by
  obtain ⟨hafter, hstart, hlongest, _⟩ := h.sound.start hcode
  have hpool := hafter.draft.constants
  have hmachine := hstart.reaches hpool hlongest hreaches
  refine ⟨fun stack hspares ↦ ?_, fun hsession hbranched index hreads ↦ ?_⟩
  · have hsize := hstart.size_stack hpool hlongest Array.size_replicate hreaches
    obtain ⟨steps, result, hhalts⟩ : ∃ steps result, machine.Halts steps result := by
      obtain ⟨steps, _, ⟨last, hhalts, _⟩ | ⟨error, last, hhalts, _⟩⟩ :=
        hmachine.halts hpool hlongest
      · exact ⟨steps, _, hhalts⟩
      · exact ⟨steps, _, hhalts⟩
    obtain ⟨same, hsame, hbut⟩ := (hspares.twins hsize).halts hpool hlongest hmachine hhalts
    exact ⟨steps, result, same, hhalts, hsame, hbut⟩
  · have hleveled := leveledPool_compile hsession.leveledPool hbranched
    rw [compile_eq, hcode] at hleveled
    exact (layered_start hbranched hcode).unset hpool hleveled hlongest hstart hreads

/-- A function that sets its local, and one that reads its own in the same slot before it sets it.
-/
def stale : Program where
  statements := [
    .eval (.call (.function [] [.bind "a" (.int 7), .eval (.ident "a")] none) []),
    .eval (.call (.function [] [.bind "b" (.ident "b"), .eval (.ident "b")] none) [])]

theorem forgets_stale : ∃ code draft machine,
    Stmt.assembleAll stale.statements .discard 0 (Builder.resume {} #[]).draft = .ok code draft ∧
    (Session.start {} code draft).ReadsUnset 0 machine ∧
    (∀ stack, machine.Spares stack → ∃ steps result same,
      machine.Halts steps result ∧ Machine.Halts steps { machine with stack := stack } same ∧
        Machine.SameButStack result same) ∧
    ∃ after, Run.step machine = .error (.uninitializedLocal 0) after := by
  have hreading : passes
      (fun code draft ↦ (Machine.reading? 8 0 0 (Session.start {} code draft)).isSome)
      (Stmt.assembleAll stale.statements .discard 0 (Builder.resume {} #[]).draft) := by
    decide +kernel
  obtain ⟨code, draft, hcode, hsome⟩ := exists_of_passes hreading
  obtain ⟨machine, hmachine⟩ := Option.isSome_iff_exists.mp hsome
  have hreads := Machine.readsUnset_of_reading hmachine
  obtain ⟨count, hreaches⟩ := hreads.reaches
  obtain ⟨hsame, hunset⟩ := Reachable.forgets .new hcode hreaches
  exact ⟨code, draft, machine, hcode, hreads, hsame, hunset .new (by decide) 0 hreads⟩

/-- A function in which two arguments are missing, so that the first operand after the call comes to
lie in the slot of its local. -/
def sunken : Program where
  statements := [
    .eval (.call (.function ["x"]
        [.bind "b" (.array [
          .call (.ident "x") [.branch (.bool true) [] none, .branch (.bool true) [] none],
          .int 5,
          .ident "b"]),
        .eval (.ident "b")] none)
      [.function ["p", "q"] [.eval (.int 1)] none])]

/-- The local was not set, and reading it gives the operand. -/
theorem sunken_reads : ∃ code draft machine after,
    Stmt.assembleAll sunken.statements .discard 0 (Builder.resume {} #[]).draft = .ok code draft ∧
    (Session.start {} code draft).ReadsUnset 1 machine ∧
    Run.step machine = .ok .running after ∧ after.stackTop = some (.integer 5) := by
  have hreading : passes
      (fun code draft ↦ (Machine.reading? 2 11 1 (Session.start {} code draft)).any fun machine ↦
        passes (fun progress after ↦ progress = .running ∧
          after.stackTop.bind Value.key? = some (.integer 5)) (Run.step machine))
      (Stmt.assembleAll sunken.statements .discard 0 (Builder.resume {} #[]).draft) := by
    decide +kernel
  obtain ⟨code, draft, hcode, hany⟩ := exists_of_passes hreading
  obtain ⟨machine, hmachine, hpasses⟩ := (Option.any_eq_true _ _).mp hany
  obtain ⟨progress, after, hstep, hafter⟩ := exists_of_passes hpasses
  obtain ⟨rfl, hkey⟩ := of_decide_eq_true hafter
  obtain ⟨value, hvalue, hnumber⟩ := Option.bind_eq_some_iff.mp hkey
  have htop : value = .integer 5 := by
    cases value <;> cases hnumber
    rfl
  exact ⟨code, draft, machine, after, hcode, Machine.readsUnset_of_reading hmachine, hstep,
    htop ▸ hvalue⟩

end Session

end StackScript
