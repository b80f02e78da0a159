import StackScript.Proofs.Machine.Invariant
import StackScript.Proofs.Machine.Trace
import Mathlib.Tactic.Ring

/-!
Machines halt. Each function at work counts for what is left of its code, an outer one more than all
inside of it can count for; so jumps forward, calls and returns all decrease the sum
(`measure_lt_of_moved`). A machine that is in order therefore halts, before the sum is used up
(`Machine.Sound.halts`), and the allowed number of steps is more than a whole run needs
(`measure_lt_stepBound`).
-/

set_option autoImplicit false
set_option relaxedAutoImplicit false

namespace StackScript

/-- What is left to the functions at work, the outermost first; the first of them is inside of so
many others. -/
def weigh (longest depth : Nat) : List Frame → Nat
  | [] => 0
  | frame :: rest =>
    (longest + 1 - frame.ip) * (longest + 2) ^ (frameLimit - 1 - depth) +
      weigh longest (depth + 1) rest

namespace Machine

def measure (longest : Nat) (machine : Machine) : Nat :=
  weigh longest 0 (machine.callers.toList ++ [machine.frame])

variable {constants : Array Value} {globals longest : Nat} {machine after : Machine}

theorem weigh_append (depth : Nat) (first second : List Frame) :
    weigh longest depth (first ++ second) =
      weigh longest depth first + weigh longest (depth + first.length) second := by
  induction first generalizing depth with
  | nil => simp [weigh]
  | cons frame rest ih =>
    simp only [List.cons_append, weigh, ih, List.length_cons]
    rw [Nat.add_assoc depth 1, Nat.add_comm 1, Nat.add_assoc]

theorem weigh_singleton (depth : Nat) (frame : Frame) :
    weigh longest depth [frame] =
      (longest + 1 - frame.ip) * (longest + 2) ^ (frameLimit - 1 - depth) := by
  simp [weigh]

/-- A step that does not end the run leaves less to do. -/
theorem measure_lt_of_moved (h : machine.Sound constants globals longest)
    (hafter : after.Sound constants globals longest) (hmoved : machine.Moved after) :
    after.measure longest < machine.measure longest := by
  have hip := h.frame.ip_le
  have hpower : ∀ exponent, 0 < (longest + 2) ^ exponent := fun exponent ↦
    Nat.pow_pos (Nat.succ_pos _)
  simp only [measure, weigh_append, weigh_singleton]
  cases hmoved with
  | onward hcallers hforward =>
    rw [hcallers]
    refine Nat.add_lt_add_left (Nat.mul_lt_mul_of_pos_right ?_ (hpower _)) _
    omega
  | called caller hcallers hforward =>
    have hdepth := hafter.depth
    rw [hcallers, Array.size_push] at hdepth
    simp only [hcallers, Array.toList_push, weigh_append, weigh_singleton, List.length_append,
      Array.length_toList, List.length_singleton, Nat.zero_add]
    rw [Nat.add_assoc]
    refine Nat.add_lt_add_left ?_ _
    -- what the caller moved on is worth more than all that the function called can do
    obtain ⟨exponent, hexponent⟩ : ∃ exponent, frameLimit - 1 - machine.callers.size =
        exponent + 1 := ⟨frameLimit - 1 - (machine.callers.size + 1), by omega⟩
    have hinner : frameLimit - 1 - (machine.callers.size + 1) = exponent := by omega
    rw [hexponent, hinner]
    have hcaller : longest + 1 - caller.ip + 1 ≤ longest + 1 - machine.frame.ip := by omega
    calc (longest + 1 - caller.ip) * (longest + 2) ^ (exponent + 1) +
          (longest + 1 - after.frame.ip) * (longest + 2) ^ exponent
        < (longest + 1 - caller.ip) * (longest + 2) ^ (exponent + 1) +
          (longest + 2) * (longest + 2) ^ exponent := by
          refine Nat.add_lt_add_left (Nat.mul_lt_mul_of_pos_right ?_ (hpower _)) _
          omega
      _ = (longest + 1 - caller.ip + 1) * (longest + 2) ^ (exponent + 1) := by ring
      _ ≤ (longest + 1 - machine.frame.ip) * (longest + 2) ^ (exponent + 1) :=
          Nat.mul_le_mul_right _ hcaller
  | returned hcallers =>
    simp only [hcallers, Array.toList_push, weigh_append, weigh_singleton]
    refine Nat.lt_add_of_pos_right (Nat.mul_pos ?_ (hpower _))
    omega

theorem Sound.next (hpool : ValidPool constants globals) (hlongest : CodeWithin constants longest)
    (h : machine.Sound constants globals longest) (hstep : Run.step machine = .ok .running after) :
    after.Sound constants globals longest := by
  have hnext := h.step hpool hlongest
  rw [hstep] at hnext
  exact hnext.1

/-- All machines that are reached from one in order are in order. -/
theorem Sound.reaches {count : Nat} (hpool : ValidPool constants globals)
    (hlongest : CodeWithin constants longest)
    (h : machine.Sound constants globals longest) (hreaches : machine.Reaches count after) :
    after.Sound constants globals longest := by
  induction hreaches with
  | here => exact h
  | next hstep _ ih => exact ih (h.next hpool hlongest hstep)

/-- A machine that is in order halts, after no more steps than are left to it. -/
theorem Sound.halts (hpool : ValidPool constants globals)
    (hlongest : CodeWithin constants longest)
    (h : machine.Sound constants globals longest) :
    ∃ count, count ≤ machine.measure longest ∧
      ((∃ last, machine.Halts count (.ok () last) ∧ last.Holds constants globals) ∨
        ∃ error last, machine.Halts count (.error error last) ∧
          last.Holds constants globals ∧ error.IsOrdinary) := by
  induction hleft : machine.measure longest using Nat.strongRecOn generalizing machine with
  | ind left ih =>
    have hstep := h.step hpool hlongest
    cases hresult : Run.step machine with
    | error error last =>
      rw [hresult] at hstep
      exact ⟨0, Nat.zero_le _, .inr ⟨error, last, ⟨machine, .here _, .failed hresult⟩, hstep⟩⟩
    | ok progress next =>
      rw [hresult] at hstep
      cases progress with
      | finished =>
        exact ⟨0, Nat.zero_le _, .inl ⟨next, ⟨machine, .here _, .finished hresult⟩, hstep⟩⟩
      | running =>
        obtain ⟨hnext, hmoved⟩ := hstep
        have hless := measure_lt_of_moved h hnext hmoved
        rw [hleft] at hless
        obtain ⟨count, hcount, hend⟩ := ih _ hless hnext rfl
        refine ⟨count + 1, by omega, ?_⟩
        have hfirst : machine.Reaches 1 next := .next hresult (.here _)
        rw [Nat.add_comm]
        rcases hend with ⟨last, hhalts, hholds⟩ | ⟨error, last, hhalts, hrest⟩
        · exact .inl ⟨last, hhalts.of_reaches hfirst, hholds⟩
        · exact .inr ⟨error, last, hhalts.of_reaches hfirst, hrest⟩

/-- More steps are allowed than are left to a machine before its first step. -/
theorem measure_lt_stepBound (hcallers : machine.callers = #[]) (hip : machine.frame.ip = 0) :
    machine.measure machine.longestCode < machine.stepBound := by
  have hpower : 0 < (machine.longestCode + 2) ^ (frameLimit - 1) := Nat.pow_pos (Nat.succ_pos _)
  simp only [measure, hcallers, weigh_append, weigh_singleton, hip]
  calc weigh machine.longestCode 0 [] +
        (machine.longestCode + 1 - 0) * (machine.longestCode + 2) ^ (frameLimit - 1 - (0 + 0))
      = (machine.longestCode + 1) * (machine.longestCode + 2) ^ (frameLimit - 1) := by
        simp [weigh]
    _ < (machine.longestCode + 2) * (machine.longestCode + 2) ^ (frameLimit - 1) :=
        Nat.mul_lt_mul_of_pos_right (Nat.lt_succ_self _) hpower
    _ = machine.stepBound := by
        rw [← Nat.pow_succ']
        rfl

end Machine

end StackScript
