import StackScript.Proofs.Session.Reachable

/-!
What holds of every run of a program that was compiled in a session, whatever the pieces before it
did: it ends (`Session.Reachable.run_halts`), and neither the code nor the values it meets are ever
malformed (`Session.Reachable.never_malformed`).
-/

set_option autoImplicit false
set_option relaxedAutoImplicit false

namespace StackScript

open Instruction (encodeAll)

namespace Session

/-- Spec §4.4, the dispatch loop. Assumes: the session is reachable, and the program compiles in it
(`hcompile`). The run halts: it ends after some number of steps, no run is longer, and the result is
that of the last step, never that of the limit on steps. -/
theorem Reachable.run_halts {session after : Session} (h : session.Reachable) {program : Program}
    {bytecode : Bytecode} (hcompile : session.compile program = (.ok bytecode, after)) :
    let machine := Machine.new bytecode after.globals after.serial
    ∃ count result, machine.Halts count result ∧
      (∀ more later, machine.Reaches more later → more ≤ count) ∧
      Run.run machine = result ∧ ∀ last, result ≠ .error .stepLimit last := by
  intro machine
  have hsound := h.sound.compile program
  rw [hcompile] at hsound
  obtain ⟨hafter, _, hconstants, code, hcode, hwell⟩ := hsound
  obtain ⟨count, _, result, hhalts, hrun, hlast⟩ := hafter.halts hconstants hcode hwell
  refine ⟨count, result, hhalts, ?_, hrun, ?_⟩
  · intro more later hreaches
    obtain ⟨last, hcount, hstops⟩ := hhalts
    by_contra hless
    obtain ⟨rest, rfl⟩ := Nat.exists_eq_add_of_lt (Nat.lt_of_not_le hless)
    exact hstops.not_reaches (hcount.split hreaches)
  · rintro last rfl
    exact hlast.2.2 rfl

/-- A function that does nothing but call itself. -/
def endless : Program :=
  ⟨[.bind "f" (.function [] [.eval (.call (.ident "f") [])] (some "f")),
    .eval (.call (.ident "f") [])]⟩

theorem endless_halts : ∃ bytecode after, Session.compile {} endless = (.ok bytecode, after) ∧
    ∃ count result, (Machine.new bytecode after.globals after.serial).Halts count result := by
  have hok : (Session.compile {} endless).1.isOk := by decide +kernel
  rcases hcompile : Session.compile {} endless with ⟨error | bytecode, after⟩
  · rw [hcompile] at hok
    cases hok
  · obtain ⟨count, result, hhalts, _⟩ := Reachable.run_halts .new hcompile
    exact ⟨bytecode, after, rfl, count, result, hhalts⟩

/-! ### Code and values in order -/

/-- Spec §4.2 and §4.4, what compiled code may refer to. Assumes: the session is reachable, and
`result` and `after` are what compiling the program in it comes to (`hcompile`). The code of every
compiled function and of a program that compiles refers only to what there is, and each function
reads only values that are captured for it. So the run of the program meets sound values only, in
its slots and among those that its functions captured, and never fails as it would for malformed
code. -/
theorem Reachable.never_malformed {session after : Session} (h : session.Reachable)
    {program : Program} {result : Except CompileError Bytecode}
    (hcompile : session.compile program = (result, after)) :
    (∀ (entry : Nat) (constant : Value), after.constants[entry]? = some constant →
      constant.ValidConstant after.constants after.scopes.current.definitions) ∧
    ∀ bytecode, result = .ok bytecode →
      (∃ code, bytecode.code.toList = encodeAll code ∧ Instruction.WellFormed bytecode.constants
        { globals := after.scopes.current.definitions } 0 code) ∧
      (∀ count machine, (Machine.new bytecode after.globals after.serial).Reaches count machine →
        machine.Holds bytecode.constants after.scopes.current.definitions ∧
        ∀ frame, frame = machine.frame ∨ frame ∈ machine.callers → ∀ value ∈ frame.free,
          value.Sound bytecode.constants after.scopes.current.definitions) ∧
      match Run.run (Machine.new bytecode after.globals after.serial) with
      | .ok _ last => last.Holds bytecode.constants after.scopes.current.definitions
      | .error error last => last.Holds bytecode.constants after.scopes.current.definitions ∧
        error.isMalformed = false := by
  have hsound := h.sound.compile program
  rw [hcompile] at hsound
  have hglobals : after.Sound →
      after.scopes.limits = { globals := after.scopes.current.definitions } := by
    intro hafter
    simp only [Scopes.limits, Scope.limits, hafter.outer]
  cases result with
  | error error =>
    have hlimits := hglobals hsound
    refine ⟨?_, by rintro _ ⟨⟩⟩
    have hpool := hsound.draft.constants
    rw [hlimits] at hpool
    exact hpool
  | ok bytecode =>
    obtain ⟨hafter, _, hconstants, code, hcode, hwell⟩ := hsound
    have hlimits := hglobals hafter
    have hpool := hafter.draft.constants
    have hmachine := hafter.sound_new hconstants hcode hwell
    obtain ⟨_, _, last, _, hrun, hlast⟩ := hafter.halts hconstants hcode hwell
    rw [← hconstants, hlimits] at hpool hmachine hlast hwell
    refine ⟨hconstants ▸ hpool, ?_⟩
    rintro _ ⟨⟩
    refine ⟨⟨code, hcode, hwell⟩, ?_, ?_⟩
    · intro count machine hreaches
      have hlongest := (Machine.new bytecode after.globals after.serial).le_longestCode.2
      have hlater := hmachine.reaches hpool hlongest hreaches
      refine ⟨hlater.holds, ?_⟩
      rintro frame (rfl | hcaller)
      · exact hlater.frame.free
      · obtain ⟨i, hi⟩ := Array.getElem?_of_mem hcaller
        exact (hlater.callers i frame hi).free
    · rw [hrun]
      cases last with
      | ok _ last => exact hlast
      | error error last => exact ⟨hlast.1, hlast.2.1⟩

theorem endless_never_malformed : ∃ bytecode after,
    Session.compile {} endless = (.ok bytecode, after) ∧
      ∃ code, bytecode.code.toList = encodeAll code ∧ Instruction.WellFormed bytecode.constants
        { globals := after.scopes.current.definitions } 0 code := by
  have hok : (Session.compile {} endless).1.isOk := by decide +kernel
  rcases hcompile : Session.compile {} endless with ⟨error | bytecode, after⟩
  · rw [hcompile] at hok
    cases hok
  · exact ⟨bytecode, after, rfl, ((Reachable.never_malformed .new hcompile).2 bytecode rfl).1⟩

end Session

end StackScript
