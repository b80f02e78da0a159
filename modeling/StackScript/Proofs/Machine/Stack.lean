import StackScript.Machine.Run
import StackScript.Proofs.Machine.Control
import StackScript.Proofs.StateMonad
import Mathlib.Data.List.Basic

/-!
What operations do to a stack whose lower cells are known. A stack shows some cells if it begins
with them; what lies above is of no account. Each operation on the topmost cells leads to a machine
that differs in its stack alone, and the cells below show unchanged.
-/

set_option autoImplicit false
set_option relaxedAutoImplicit false

namespace StackScript

/-- The stack has its full size and begins with the cells. -/
structure Shows (stack : Array (Option Value)) (cells : List (Option Value)) : Prop where
  size : stack.size = stackSize
  cells : cells <+: stack.toList

namespace Shows

variable {stack : Array (Option Value)} {cells more : List (Option Value)}
  {content : Option Value}

theorem left (h : Shows stack (cells ++ more)) : Shows stack cells :=
  ⟨h.size, (List.prefix_append cells more).trans h.cells⟩

/-- A stack that is filled up above the cells. -/
theorem of_append (h : cells.length ≤ stackSize) :
    Shows (cells ++ List.replicate (stackSize - cells.length) none).toArray cells := by
  refine ⟨?_, List.prefix_append _ _⟩
  rw [List.size_toArray, List.length_append, List.length_replicate]
  omega

theorem length_le (h : Shows stack cells) : cells.length ≤ stackSize := by
  have hsize : stack.toList.length = stackSize := h.size
  rw [← hsize]
  exact h.cells.length_le

theorem getElem? (h : Shows stack cells) {slot : Nat} (hslot : slot < cells.length) :
    stack[slot]? = cells[slot]? := by
  obtain ⟨rest, hrest⟩ := h.cells
  rw [← Array.getElem?_toList, ← hrest, List.getElem?_append_left hslot]

theorem getElem?_length (h : Shows stack (cells ++ content :: more)) :
    stack[cells.length]? = some content := by
  rw [h.getElem? (by simp)]
  simp

theorem getElem?_operand {operands : List Value} {floor index : Nat}
    (h : Shows stack (cells ++ operands.map some)) (hfloor : cells.length = floor)
    (hindex : index < operands.length) :
    ∃ value, stack[floor + index]? = some (some value) := by
  refine ⟨operands[index], ?_⟩
  rw [h.getElem? (by simp; omega), ← hfloor, List.getElem?_append_right (Nat.le_add_right _ _),
    Nat.add_sub_cancel_left]
  simp [hindex]

/-- Writing to a slot changes its cell, if it is one of those that show. -/
theorem set (h : Shows stack cells) (slot : Nat) (content : Option Value) :
    Shows (stack.setIfInBounds slot content) (cells.set slot content) := by
  obtain ⟨rest, hrest⟩ := h.cells
  refine ⟨by simp [h.size], ?_⟩
  rw [Array.toList_setIfInBounds, ← hrest, List.set_append]
  split
  · exact List.prefix_append _ _
  · next hslot =>
    rw [List.set_eq_of_length_le (Nat.le_of_not_lt hslot)]
    exact List.prefix_append _ _

/-- Writing to the slot above all cells adds one. -/
theorem snoc (h : Shows stack cells) (hroom : cells.length < stackSize)
    (content : Option Value) :
    Shows (stack.setIfInBounds cells.length content) (cells ++ [content]) := by
  obtain ⟨rest, hrest⟩ := h.cells
  have hlength : cells.length + rest.length = stackSize := by
    rw [← List.length_append, hrest, Array.length_toList, h.size]
  cases rest with
  | nil =>
    simp only [List.length_nil] at hlength
    omega
  | cons other rest =>
    refine ⟨by simp [h.size], rest, ?_⟩
    rw [Array.toList_setIfInBounds, ← hrest]
    simp

end Shows

namespace Run

variable {machine : Machine} {cells : List (Option Value)} {value : Value}

theorem readSlot_of_shows {content : Option Value} {more : List (Option Value)} {slot : Nat}
    (h : Shows machine.stack (cells ++ content :: more)) (hslot : slot = cells.length) :
    readSlot slot machine = .ok content machine := by
  unfold readSlot
  rw [hslot, h.getElem?_length]

theorem writeSlot_of_shows (h : Shows machine.stack cells) {slot : Nat} (hslot : slot < stackSize)
    (content : Option Value) :
    writeSlot slot content machine =
      .ok () { machine with stack := machine.stack.setIfInBounds slot content } := by
  unfold writeSlot
  rw [if_pos (h.size ▸ hslot)]

theorem push_of_full (h : stackSize ≤ machine.sp) (value : Value) :
    push value machine = .error .stackOverflow machine := by
  unfold push
  rw [getSp_bind]
  dsimp only
  rw [check_apply, if_pos h]

theorem push_of_shows (h : Shows machine.stack cells) (hsp : machine.sp = cells.length)
    (hroom : cells.length < stackSize) (value : Value) :
    ∃ stack, push value machine =
        .ok () { machine with stack := stack, sp := cells.length + 1 } ∧
      Shows stack (cells ++ [some value]) := by
  refine ⟨_, ?_, h.snoc hroom (some value)⟩
  unfold push
  rw [getSp_bind, hsp]
  dsimp only
  rw [check_apply, if_neg (Nat.not_le_of_lt hroom), bind_of_ok (writeSlot_of_shows h hroom _)]
  rfl

theorem takeSlot_of_shows {more : List (Option Value)} {slot : Nat}
    (h : Shows machine.stack (cells ++ some value :: more)) (hslot : slot = cells.length) :
    ∃ stack, takeSlot slot machine = .ok value { machine with stack := stack } ∧
      Shows stack (cells ++ none :: more) := by
  have hlength := h.length_le
  simp only [List.length_append, List.length_cons] at hlength
  have hset := h.set slot none
  rw [hslot, List.set_append_right _ _ (Nat.le_refl _), Nat.sub_self, List.set_cons_zero] at hset
  refine ⟨_, ?_, hset⟩
  unfold takeSlot
  rw [bind_of_ok (readSlot_of_shows h hslot)]
  dsimp only
  rw [hslot, bind_of_ok (writeSlot_of_shows h (by omega) none)]
  rfl

theorem pop_of_shows (h : Shows machine.stack (cells ++ [some value]))
    (hsp : machine.sp = cells.length + 1) :
    ∃ stack, pop machine = .ok value { machine with stack := stack, sp := cells.length } ∧
      Shows stack cells := by
  obtain ⟨stack, htake, hshows⟩ := takeSlot_of_shows h rfl
  refine ⟨stack, ?_, hshows.left⟩
  unfold pop
  rw [getSp_bind, hsp]
  dsimp only
  rw [bind_of_ok htake]
  rfl

theorem takeSlots_of_shows {values done : List Value} {slot : Nat}
    (h : Shows machine.stack (cells ++ values.map some)) (hslot : slot = cells.length) :
    ∃ stack, takeSlots slot done values.length machine =
        .ok (done.reverse ++ values) { machine with stack := stack } ∧
      Shows stack cells := by
  induction values generalizing machine cells done slot with
  | nil => exact ⟨machine.stack, by simp [takeSlots], h.left⟩
  | cons value rest ih =>
    obtain ⟨stack, htake, hshows⟩ := takeSlot_of_shows h hslot
    rw [← List.singleton_append, ← List.append_assoc] at hshows
    obtain ⟨last, hrest, hlast⟩ : ∃ last,
        takeSlots (slot + 1) (value :: done) rest.length { machine with stack := stack } =
          .ok ((value :: done).reverse ++ rest) { machine with stack := last } ∧
        Shows last (cells ++ [none]) := ih hshows (by simp [hslot])
    refine ⟨last, ?_, hlast.left⟩
    rw [List.length_cons, takeSlots, bind_of_ok htake, hrest]
    simp

theorem takeTop_of_shows {values : List Value}
    (h : Shows machine.stack (cells ++ values.map some))
    (hsp : machine.sp = cells.length + values.length) :
    ∃ stack, takeTop values.length machine =
        .ok values { machine with stack := stack, sp := cells.length } ∧
      Shows stack cells := by
  obtain ⟨stack, htake, hshows⟩ : ∃ stack,
      takeSlots cells.length [] values.length machine =
        .ok values { machine with stack := stack } ∧
      Shows stack cells := takeSlots_of_shows h rfl
  refine ⟨stack, ?_, hshows⟩
  unfold takeTop
  rw [getSp_bind, hsp]
  dsimp only
  rw [check_apply, if_neg (by omega), Nat.add_sub_cancel, bind_of_ok htake]
  rfl

theorem clearSlots_of_shows (count : Nat) {slot : Nat} (h : Shows machine.stack cells)
    (hslot : slot = cells.length) (hroom : cells.length + count ≤ stackSize) :
    ∃ stack, clearSlots slot count machine = .ok () { machine with stack := stack } ∧
      Shows stack (cells ++ List.replicate count none) := by
  subst hslot
  induction count generalizing machine cells with
  | zero => exact ⟨machine.stack, rfl, by simpa using h⟩
  | succ count ih =>
    have hnext := h.snoc (by omega) none
    let cleared : Machine :=
      { machine with stack := machine.stack.setIfInBounds cells.length none }
    have hcleared : Shows cleared.stack (cells ++ [none]) := hnext
    obtain ⟨last, hrest, hlast⟩ := ih hcleared (by simp; omega)
    refine ⟨last, ?_, ?_⟩
    · rw [clearSlots, bind_of_ok (writeSlot_of_shows h (by omega) none)]
      rwa [List.length_append] at hrest
    · rwa [List.append_assoc, List.singleton_append, ← List.replicate_succ] at hlast

/-- What a local slot holds is pushed. -/
theorem loadLocal_of_getElem? {index : Nat} {content : Option Value}
    (hroom : machine.frame.base + index < stackSize)
    (h : machine.stack[machine.frame.base + index]? = some content) :
    loadLocal index machine =
      content.elim (.error (.uninitializedLocal index) machine) (push · machine) := by
  have hread : readSlot (machine.frame.base + index) machine = .ok content machine := by
    simp only [readSlot, h]
  unfold loadLocal
  rw [getFrame_bind]
  dsimp only
  rw [check_apply, if_neg (Nat.not_le_of_lt hroom), bind_of_ok hread]
  cases content <;> rfl

/-! ### Calls -/

/-- A call once the callee is found. -/
def callValue (callee : Value) (count : Nat) : Run Unit :=
  match callee with
  | .closure label routine free => callClosure label routine free count
  | .builtin builtin => callBuiltin builtin count
  | other => throw (.notCallable other.kind)

/-- The callee is the value below the arguments. -/
theorem call_of_shows {callee : Value} {arguments : List Value}
    (h : Shows machine.stack (cells ++ some callee :: arguments.map some))
    (hsp : machine.sp = cells.length + (arguments.length + 1)) :
    call arguments.length machine = callValue callee arguments.length machine := by
  have hread : readSlot (machine.sp - (arguments.length + 1)) machine =
      .ok (some callee) machine := by
    refine readSlot_of_shows h ?_
    rw [hsp, Nat.add_sub_cancel]
  unfold call
  rw [getSp_bind]
  dsimp only
  rw [check_apply, if_neg (by omega), bind_of_ok hread]
  cases callee <;> rfl

/-- A call that passes all checks: behind the arguments the other locals are unset. -/
theorem callClosure_of_shows (label : Label) {routine : Routine} (free : List Value)
    {arguments : List Value} (h : Shows machine.stack (cells ++ arguments.map some))
    (hsp : machine.sp = cells.length + arguments.length)
    (hcount : arguments.length = routine.parameters)
    (hparameters : routine.parameters ≤ routine.locals)
    (hdepth : machine.callers.size + 1 < frameLimit)
    (hroom : cells.length + routine.locals ≤ stackSize) :
    ∃ stack, callClosure label routine free arguments.length machine = .ok ()
        { machine with
          stack := stack
          sp := cells.length + routine.locals
          callers := machine.callers.push machine.frame
          frame :=
            { label := label, routine := routine, free := free, ip := 0, base := cells.length } } ∧
      Shows stack (cells ++ (arguments.map some ++
        List.replicate (routine.locals - arguments.length) none)) := by
  have htop : machine.sp = (cells ++ arguments.map some).length := by simp [hsp]
  have hmax : max routine.locals arguments.length = routine.locals := by omega
  obtain ⟨stack, hclear, hcleared⟩ := clearSlots_of_shows (routine.locals - arguments.length) h htop
    (by simp; omega)
  rw [List.append_assoc] at hcleared
  refine ⟨stack, ?_, hcleared⟩
  rw [callClosure_eq, if_neg (not_not_intro hcount), if_neg (by omega), if_neg (by omega), hmax,
    hclear, if_neg (by omega), hsp, Nat.add_sub_cancel]

/-- The result takes the place of the callee. -/
theorem returnFromCall_of_shows {callers : Array Frame} {caller : Frame}
    (h : Shows machine.stack cells) (hcallers : machine.callers = callers.push caller)
    (hbase : machine.frame.base = cells.length + 1) (hroom : cells.length < stackSize)
    (value : Value) :
    ∃ stack, returnFromCall value machine = .ok ()
        { machine with
          stack := stack, sp := cells.length + 1, callers := callers, frame := caller } ∧
      Shows stack (cells ++ [some value]) := by
  let left : Machine :=
    { machine with callers := machine.callers.pop, frame := caller, sp := cells.length }
  have hleft : Shows left.stack cells := h
  obtain ⟨stack, hpush, hpushed⟩ := push_of_shows hleft rfl hroom value
  refine ⟨stack, ?_, hpushed⟩
  rw [returnFromCall_eq, hcallers, Array.back?_push, hbase, ← hcallers]
  refine hpush.trans ?_
  simp only [left, hcallers, Array.pop_push]

end Run

end StackScript
