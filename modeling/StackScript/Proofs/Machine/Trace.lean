import StackScript.Machine.Run
import StackScript.Proofs.StateMonad

/-!
A run as a sequence of steps. A machine reaches others while its steps let the program go on, and it
halts with the result of the first step that does not. A machine that halts before the allowed steps
are used up is run to just that result (`Run.run_of_halts`).
-/

set_option autoImplicit false
set_option relaxedAutoImplicit false

namespace StackScript.Machine

open Run

/-- So many steps lead from the first machine to the second, and the program goes on. -/
inductive Reaches : Nat → Machine → Machine → Prop
  | here (machine : Machine) : Reaches 0 machine machine
  | next {count : Nat} {machine middle after : Machine}
    (hstep : step machine = .ok .running middle) (hrest : Reaches count middle after) :
    Reaches (count + 1) machine after

/-- The next step is the last one. -/
inductive Stops (machine : Machine) : EStateM.Result RunError Machine Unit → Prop
  | finished {after : Machine} (hstep : step machine = .ok .finished after) :
    Stops machine (.ok () after)
  | failed {error : RunError} {after : Machine} (hstep : step machine = .error error after) :
    Stops machine (.error error after)

/-- The step behind so many others is the last one. -/
def Halts (count : Nat) (machine : Machine) (result : EStateM.Result RunError Machine Unit) :
    Prop :=
  ∃ after, machine.Reaches count after ∧ after.Stops result

variable {machine middle after : Machine} {count more : Nat}
  {result other : EStateM.Result RunError Machine Unit}

theorem Reaches.trans (h : machine.Reaches count middle) (hnext : middle.Reaches more after) :
    machine.Reaches (count + more) after := by
  induction h with
  | here => simpa using hnext
  | next hstep _ ih =>
    rw [Nat.add_right_comm]
    exact .next hstep (ih hnext)

/-- The steps of a machine lead to one place only. -/
theorem Reaches.split (h : machine.Reaches count middle)
    (hnext : machine.Reaches (count + more) after) : middle.Reaches more after := by
  induction h with
  | here => simpa using hnext
  | next hstep _ ih =>
    rw [Nat.add_right_comm] at hnext
    cases hnext with
    | next hother hrest =>
      rw [hstep] at hother
      cases hother
      exact ih hrest

theorem Reaches.cut (h : machine.Reaches (count + more) after) :
    ∃ middle, machine.Reaches count middle ∧ middle.Reaches more after := by
  induction count generalizing machine with
  | zero => exact ⟨machine, .here _, by simpa using h⟩
  | succ count ih =>
    rw [Nat.add_right_comm] at h
    cases h with
    | next hstep hrest =>
      obtain ⟨middle, hfirst, hsecond⟩ := ih hrest
      exact ⟨middle, .next hstep hfirst, hsecond⟩

theorem Halts.of_reaches (h : machine.Reaches count middle) (hhalts : middle.Halts more result) :
    machine.Halts (count + more) result := by
  obtain ⟨last, hlast, hstops⟩ := hhalts
  exact ⟨last, h.trans hlast, hstops⟩

theorem Stops.unique (h : machine.Stops result) (hother : machine.Stops other) :
    result = other := by
  cases h with
  | finished hstep =>
    cases hother with
    | finished hagain =>
      rw [hstep] at hagain
      cases hagain
      rfl
    | failed hagain =>
      rw [hstep] at hagain
      cases hagain
  | failed hstep =>
    cases hother with
    | finished hagain =>
      rw [hstep] at hagain
      cases hagain
    | failed hagain =>
      rw [hstep] at hagain
      cases hagain
      rfl

theorem Stops.not_reaches (h : machine.Stops result) :
    ¬ machine.Reaches (count + 1) after := by
  intro hreaches
  cases hreaches with
  | next hstep _ =>
    cases h with
    | finished hagain =>
      rw [hstep] at hagain
      cases hagain
    | failed hagain =>
      rw [hstep] at hagain
      cases hagain

/-- A machine halts in one way. -/
theorem Halts.unique (h : machine.Halts count result) (hother : machine.Halts more other) :
    result = other ∧ count = more := by
  obtain ⟨first, hfirst, hstops⟩ := h
  obtain ⟨second, hsecond, hagain⟩ := hother
  rcases Nat.lt_trichotomy count more with hless | rfl | hless
  · obtain ⟨rest, rfl⟩ := Nat.exists_eq_add_of_lt hless
    exact absurd (hfirst.split hsecond) hstops.not_reaches
  · have hsame : first = second := by
      have h : first.Reaches 0 second := hfirst.split hsecond
      cases h
      rfl
    subst hsame
    exact ⟨hstops.unique hagain, rfl⟩
  · obtain ⟨rest, rfl⟩ := Nat.exists_eq_add_of_lt hless
    exact absurd (hsecond.split hfirst) hagain.not_reaches

/-- What is left of a run halts as the whole does. -/
theorem Halts.rest (h : machine.Halts count result) (hreaches : machine.Reaches more middle) :
    ∃ left, middle.Halts left result := by
  obtain ⟨last, hlast, hstops⟩ := h
  rcases Nat.lt_or_ge count more with hless | hle
  · obtain ⟨beyond, rfl⟩ := Nat.exists_eq_add_of_lt hless
    exact absurd (hlast.split hreaches) hstops.not_reaches
  · obtain ⟨left, rfl⟩ := Nat.exists_eq_add_of_le hle
    exact ⟨left, last, hreaches.split hlast, hstops⟩

/-! ### Runs -/

theorem steps_of_reaches (h : machine.Reaches count after) :
    steps count machine = .error .stepLimit after := by
  induction h with
  | here => rfl
  | next hstep _ ih =>
    rw [steps, bind_of_ok hstep]
    exact ih

theorem steps_of_halts {allowed : Nat} (h : machine.Halts count result) (hcount : count < allowed) :
    steps allowed machine = result := by
  obtain ⟨last, hreaches, hstops⟩ := h
  induction hreaches generalizing allowed with
  | here =>
    obtain ⟨rest, rfl⟩ := Nat.exists_eq_add_of_lt hcount
    rw [Nat.zero_add, steps]
    cases hstops with
    | finished hstep =>
      rw [bind_of_ok hstep]
      rfl
    | failed hstep => rw [bind_of_error hstep]
  | next hstep _ ih =>
    obtain ⟨rest, rfl⟩ : ∃ rest, allowed = rest + 1 := ⟨allowed - 1, by omega⟩
    rw [steps, bind_of_ok hstep]
    exact ih (by omega) hstops

/-- Rounds of steps are as good as all of them at once. -/
theorem rounds_of_halts {allowed : Nat} (h : machine.Halts count result)
    (hcount : count < allowed * roundLength)
    (hlimit : ∀ after, result ≠ .error .stepLimit after) :
    rounds allowed machine = result := by
  induction allowed generalizing machine count with
  | zero => simp at hcount
  | succ allowed ih =>
    unfold rounds
    by_cases hround : count < roundLength
    · rw [steps_of_halts h hround]
      cases result with
      | ok _ after => rfl
      | error error after =>
        cases error
        case stepLimit => exact absurd rfl (hlimit after)
        all_goals rfl
    · obtain ⟨last, hreaches, hstops⟩ := h
      obtain ⟨rest, rfl⟩ := Nat.exists_eq_add_of_le (Nat.le_of_not_lt hround)
      obtain ⟨middle, hmiddle, hrest⟩ := hreaches.cut
      rw [steps_of_reaches hmiddle]
      refine ih ⟨last, hrest, hstops⟩ ?_
      rw [Nat.succ_mul] at hcount
      omega

theorem run_of_halts (h : machine.Halts count result) (hcount : count < machine.stepBound)
    (hlimit : ∀ after, result ≠ .error .stepLimit after) : run machine = result := by
  refine rounds_of_halts h ?_ hlimit
  exact Nat.lt_of_lt_of_le hcount (Nat.le_mul_of_pos_right _ (by decide))

end StackScript.Machine
