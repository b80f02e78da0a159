import StackScript.Proofs.Machine.Control

/-!
Operations on the stack alone. Most operations take operands and leave others in their place, and
change nothing else but the next label and what was printed: the globals, the functions at work and
the value that was discarded last stay as they are, also where the operation fails, and it does not
fail as the reading of an instruction does (`Run.Plain`).
-/

set_option autoImplicit false
set_option relaxedAutoImplicit false

namespace StackScript

/-- Nothing has changed but the stack, the next label and what was printed. -/
structure Machine.Restacked (before after : Machine) : Prop where
  globals : after.globals = before.globals
  frame : after.frame = before.frame
  callers : after.callers = before.callers
  lastPopped : after.lastPopped = before.lastPopped

namespace Machine

theorem Restacked.refl (machine : Machine) : machine.Restacked machine :=
  ⟨rfl, rfl, rfl, rfl⟩

theorem Restacked.trans {first second third : Machine} (h : first.Restacked second)
    (hnext : second.Restacked third) : first.Restacked third :=
  ⟨hnext.globals.trans h.globals, hnext.frame.trans h.frame, hnext.callers.trans h.callers,
    hnext.lastPopped.trans h.lastPopped⟩

end Machine

/-- The errors of reading an instruction, which come before it is carried out. -/
def RunError.isOfReading : RunError → Bool
  | unknownOpcode _ | truncatedInstruction _ => true
  | _ => false

theorem RunError.isOfReading_of_isOfValues {error : RunError} (h : error.isOfValues) :
    error.isOfReading = false := by
  cases error <;> first | rfl | cases h

namespace Run

open Machine

variable {α β : Type}

/-- Whether it comes to its end or fails, the action works on the stack alone; and it fails with no
error of reading. -/
def Plain (action : Run α) : Prop :=
  ∀ machine, Ends action machine (fun _ after ↦ machine.Restacked after)
    fun error after ↦ machine.Restacked after ∧ error.isOfReading = false

theorem Plain.at_ok {action : Run α} (h : Plain action) {machine after : Machine} {yielded : α}
    (hdone : action machine = .ok yielded after) : machine.Restacked after :=
  (h machine).at_ok hdone

theorem Plain.bind {action : Run α} {next : α → Run β} (h : Plain action)
    (hnext : ∀ yielded, Plain (next yielded)) : Plain (action >>= next) := by
  refine fun machine ↦ Ends.bind (h machine) fun yielded middle hfirst ↦ ?_
  exact (hnext yielded middle).mono (fun _ _ hsecond ↦ hfirst.trans hsecond)
    fun _ _ hsecond ↦ ⟨hfirst.trans hsecond.1, hsecond.2⟩

theorem Plain.pure (yielded : α) : Plain (Pure.pure yielded) :=
  fun machine ↦ .refl machine

theorem Plain.throw {error : RunError} (h : error.isOfReading = false) :
    Plain (MonadExcept.throw error : Run α) :=
  fun machine ↦ ⟨.refl machine, h⟩

theorem Plain.check {c : Prop} [Decidable c] {error : RunError} {next : PUnit → Run α}
    (h : error.isOfReading = false) (hnext : Plain (next ⟨⟩)) :
    Plain (if c then (do next (← MonadExcept.throw error)) else next ⟨⟩) :=
  fun machine ↦ .check (fun _ ↦ ⟨.refl machine, h⟩) fun _ ↦ hnext machine

/-! ### Slots -/

theorem plain_readSlot (slot : Nat) : Plain (readSlot slot) := by
  intro machine
  unfold Ends readSlot
  cases machine.stack[slot]? with
  | none => exact ⟨.refl machine, rfl⟩
  | some _ => exact .refl machine

theorem plain_writeSlot (slot : Nat) (content : Option Value) : Plain (writeSlot slot content) := by
  intro machine
  unfold Ends writeSlot
  by_cases hslot : slot < machine.stack.size
  · rw [if_pos hslot]
    exact ⟨rfl, rfl, rfl, rfl⟩
  · rw [if_neg hslot]
    exact ⟨.refl machine, rfl⟩

theorem plain_setSp (sp : Nat) : Plain (setSp sp) :=
  fun _ ↦ ⟨rfl, rfl, rfl, rfl⟩

theorem plain_getSp : Plain getSp :=
  fun machine ↦ .refl machine

theorem plain_takeSlot (slot : Nat) : Plain (takeSlot slot) := by
  refine (plain_readSlot slot).bind ?_
  rintro (_ | value)
  · exact .throw rfl
  · exact (plain_writeSlot slot none).bind fun _ ↦ .pure value

theorem plain_push (value : Value) : Plain (push value) :=
  plain_getSp.bind fun sp ↦ .check rfl <| (plain_writeSlot sp _).bind fun _ ↦ plain_setSp _

theorem plain_pop : Plain pop := by
  refine plain_getSp.bind ?_
  rintro (_ | top)
  · exact .throw rfl
  · exact (plain_takeSlot top).bind fun value ↦ (plain_setSp top).bind fun _ ↦ .pure value

theorem plain_takeSlots (slot : Nat) (done : List Value) (count : Nat) :
    Plain (takeSlots slot done count) := by
  induction count generalizing slot done with
  | zero => exact .pure _
  | succ count ih => exact (plain_takeSlot slot).bind fun value ↦ ih (slot + 1) (value :: done)

theorem plain_takeTop (count : Nat) : Plain (takeTop count) :=
  plain_getSp.bind fun _ ↦ .check rfl <| (plain_takeSlots _ _ _).bind fun values ↦
    (plain_setSp _).bind fun _ ↦ .pure values

theorem plain_clearSlots (slot count : Nat) : Plain (clearSlots slot count) := by
  induction count generalizing slot with
  | zero => exact .pure _
  | succ count ih => exact (plain_writeSlot slot none).bind fun _ ↦ ih (slot + 1)

/-! ### The rest of the state -/

theorem plain_getFrame : Plain getFrame :=
  fun machine ↦ .refl machine

theorem plain_atTopLevel : Plain atTopLevel :=
  fun machine ↦ .refl machine

theorem plain_constant? (entry : Nat) : Plain (constant? entry) :=
  fun machine ↦ .refl machine

theorem plain_readGlobal (index : Nat) : Plain (readGlobal index) := by
  intro machine
  unfold Ends readGlobal
  cases machine.globals[index]? with
  | none => exact ⟨.refl machine, rfl⟩
  | some _ => exact .refl machine

theorem plain_freshLabel : Plain freshLabel :=
  fun _ ↦ ⟨rfl, rfl, rfl, rfl⟩

theorem plain_print (text : String) : Plain (print text) :=
  fun _ ↦ ⟨rfl, rfl, rfl, rfl⟩

theorem plain_ofValues {result : Except RunError α}
    (h : ∀ error, result = .error error → error.isOfValues) : Plain (ofExcept result) := by
  cases result with
  | ok value => exact .pure value
  | error error => exact .throw (error.isOfReading_of_isOfValues (h error rfl))

/-! ### Operations -/

theorem plain_arithmetic {op : Opcode} (hop : op ∈ [.add, .sub, .mul, .div]) :
    Plain (arithmetic op) := by
  refine plain_pop.bind fun right ↦ plain_pop.bind fun left ↦ plain_freshLabel.bind fun label ↦ ?_
  exact (plain_ofValues fun _ ↦ isOfValues_of_operate hop).bind plain_push

theorem plain_comparison {op : Opcode} (hop : op ∈ [.equal, .notEqual, .greaterThan]) :
    Plain (comparison op) := by
  refine plain_pop.bind fun right ↦ plain_pop.bind fun left ↦ ?_
  exact (plain_ofValues fun _ ↦ isOfValues_of_compare hop).bind fun _ ↦ plain_push _

theorem plain_not : Plain (do push (.boolean !(← pop).isTruthy)) :=
  plain_pop.bind fun _ ↦ plain_push _

theorem plain_negate : Plain (do push (← ofExcept (← pop).negate)) :=
  plain_pop.bind fun _ ↦ (plain_ofValues fun _ ↦ isOfValues_of_negate).bind plain_push

theorem plain_index : Plain index :=
  plain_pop.bind fun _ ↦ plain_pop.bind fun _ ↦
    (plain_ofValues fun _ ↦ isOfValues_of_lookUp).bind plain_push

theorem plain_loadConstant (entry : Nat) : Plain (loadConstant entry) := by
  refine (plain_constant? entry).bind ?_
  rintro (_ | value)
  · exact .throw rfl
  · exact plain_push value

theorem plain_loadGlobal (index : Nat) : Plain (loadGlobal index) := by
  refine (plain_readGlobal index).bind ?_
  rintro (_ | value)
  · exact .throw rfl
  · exact plain_push value

theorem plain_storeLocal (index : Nat) : Plain (storeLocal index) :=
  plain_pop.bind fun _ ↦ plain_getFrame.bind fun _ ↦ .check rfl <| plain_writeSlot _ _

theorem plain_loadLocal (index : Nat) : Plain (loadLocal index) := by
  refine plain_getFrame.bind fun frame ↦ .check rfl <| (plain_readSlot _).bind ?_
  rintro (_ | value)
  · exact .throw rfl
  · exact plain_push value

theorem plain_loadFree (index : Nat) : Plain (loadFree index) := by
  refine plain_getFrame.bind fun frame ↦ ?_
  split
  · exact plain_push _
  · exact .throw rfl

theorem plain_loadBuiltin (index : Nat) : Plain (loadBuiltin index) := by
  unfold loadBuiltin
  split
  · exact plain_push _
  · exact .throw rfl

theorem plain_currentClosure : Plain (do push (← getFrame).closure) :=
  plain_getFrame.bind fun _ ↦ plain_push _

theorem plain_makeArray (count : Nat) : Plain (makeArray count) :=
  (plain_takeTop count).bind fun _ ↦ plain_freshLabel.bind fun _ ↦ plain_push _

theorem plain_makeHash (count : Nat) : Plain (makeHash count) :=
  (plain_takeTop count).bind fun _ ↦ (plain_ofValues fun _ ↦ isOfValues_of_addAll).bind fun _ ↦
    plain_freshLabel.bind fun _ ↦ plain_push _

theorem plain_makeClosure (entry count : Nat) : Plain (makeClosure entry count) := by
  refine (plain_constant? entry).bind fun found ↦ ?_
  split
  · exact (plain_takeTop count).bind fun _ ↦ plain_freshLabel.bind fun _ ↦ plain_push _
  · exact .throw rfl

theorem plain_callBuiltin (builtin : Builtin) (count : Nat) : Plain (callBuiltin builtin count) := by
  refine (plain_takeTop count).bind fun arguments ↦ (plain_print _).bind fun _ ↦ ?_
  refine plain_freshLabel.bind fun label ↦ plain_getSp.bind ?_
  rintro (_ | callee)
  · exact .throw rfl
  · exact (plain_setSp callee).bind fun _ ↦ plain_push _

end Run

end StackScript
