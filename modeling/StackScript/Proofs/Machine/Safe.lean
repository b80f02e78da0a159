import StackScript.Proofs.Machine.Control
import StackScript.Proofs.Value.Sound

/-!
Actions of a machine that holds sound values only. An action is safe if it leaves only such values
behind, also when it fails, and if it never fails the way malformed code does. Safe actions leave
the functions at work as they are; what calls and returns do to them is said apart.
-/

set_option autoImplicit false
set_option relaxedAutoImplicit false

namespace StackScript

/-- The errors of code that refers to something that there is not. -/
def RunError.isMalformed : RunError → Bool
  | unknownOpcode _ | truncatedInstruction _ | invalidConstant _ | invalidFreeIndex _
  | unknownBuiltin _ => true
  | _ => false

/-- An error that is due to what the program does. -/
def RunError.IsOrdinary (error : RunError) : Prop :=
  error.isMalformed = false ∧ error ≠ .stepLimit

theorem RunError.IsOrdinary.of_isOfValues {error : RunError} (h : error.isOfValues) :
    error.IsOrdinary := by
  constructor
  · cases error <;> simp_all [isOfValues, isMalformed]
  · rintro rfl
    cases h

/-- The constants are those of the pool, and all values in the slots are sound. -/
structure Machine.Holds (constants : Array Value) (globals : Nat) (machine : Machine) : Prop where
  pool : machine.constants = constants
  onStack (slot : Nat) (value : Value) :
    machine.stack[slot]? = some (some value) → value.Sound constants globals
  inGlobal (slot : Nat) (value : Value) :
    machine.globals[slot]? = some (some value) → value.Sound constants globals
  popped (value : Value) :
    machine.lastPopped = some value → value.Sound constants globals

namespace Run

variable {constants : Array Value} {globals : Nat} {machine : Machine} {α β : Type}

/-- From this machine, if it holds sound values, the action leads to a machine that holds such
values, with the same functions at work; and it yields what satisfies the property. -/
def Safe (constants : Array Value) (globals : Nat) (action : Run α) (machine : Machine)
    (property : α → Machine → Prop) : Prop :=
  machine.Holds constants globals →
    match action machine with
    | .ok yielded after => after.Holds constants globals ∧
      after.frame = machine.frame ∧ after.callers = machine.callers ∧ property yielded after
    | .error error after => after.Holds constants globals ∧ error.IsOrdinary

variable {property : α → Machine → Prop} {further : β → Machine → Prop}

theorem Safe.bind {action : Run α} {next : α → Run β}
    (h : Safe constants globals action machine property)
    (hnext : ∀ yielded after, after.frame = machine.frame → property yielded after →
      Safe constants globals (next yielded) after further) :
    Safe constants globals (action >>= next) machine further := by
  intro hholds
  have hfirst := h hholds
  cases haction : action machine with
  | error error after =>
    rw [haction] at hfirst
    rw [bind_of_error haction]
    exact hfirst
  | ok yielded middle =>
    rw [haction] at hfirst
    obtain ⟨hmiddle, hframe, hcallers, hproperty⟩ := hfirst
    rw [bind_of_ok haction]
    have hlast := hnext yielded middle hframe hproperty hmiddle
    cases hrest : next yielded middle with
    | ok _ after =>
      rw [hrest] at hlast
      exact ⟨hlast.1, hlast.2.1.trans hframe, hlast.2.2.1.trans hcallers, hlast.2.2.2⟩
    | error _ after =>
      rw [hrest] at hlast
      exact hlast

theorem Safe.pure {yielded : α} (h : property yielded machine) :
    Safe constants globals (Pure.pure yielded) machine property :=
  fun hholds ↦ ⟨hholds, rfl, rfl, h⟩

theorem Safe.throw {error : RunError} (h : error.IsOrdinary) :
    Safe constants globals (MonadExcept.throw error) machine property :=
  fun hholds ↦ ⟨hholds, h⟩

theorem Safe.mono {action : Run α} {weaker : α → Machine → Prop}
    (h : Safe constants globals action machine property)
    (hweaker : ∀ yielded after, property yielded after → weaker yielded after) :
    Safe constants globals action machine weaker := by
  intro hholds
  have hfirst := h hholds
  cases haction : action machine with
  | ok yielded after =>
    rw [haction] at hfirst
    exact ⟨hfirst.1, hfirst.2.1, hfirst.2.2.1, hweaker _ _ hfirst.2.2.2⟩
  | error error after =>
    rw [haction] at hfirst
    exact hfirst

/-! ### Slots -/

theorem safe_readSlot (slot : Nat) :
    Safe constants globals (readSlot slot) machine fun content _ ↦
      ∀ value, content = some value → value.Sound constants globals := by
  intro hholds
  unfold readSlot
  cases h : machine.stack[slot]? with
  | none => exact ⟨hholds, rfl, by simp⟩
  | some content =>
    refine ⟨hholds, rfl, rfl, ?_⟩
    rintro value rfl
    exact hholds.onStack slot value h

theorem safe_writeSlot {slot : Nat} {content : Option Value}
    (h : ∀ value, content = some value → value.Sound constants globals) :
    Safe constants globals (writeSlot slot content) machine fun _ _ ↦ True := by
  intro hholds
  unfold writeSlot
  by_cases hslot : slot < machine.stack.size
  · rw [if_pos hslot]
    refine ⟨⟨hholds.pool, ?_, hholds.inGlobal, hholds.popped⟩, rfl, rfl, trivial⟩
    intro other value hother
    rw [Array.getElem?_setIfInBounds] at hother
    split at hother
    · exact h value (Option.some.inj hother)
    · exact hholds.onStack other value hother
  · rw [if_neg hslot]
    exact ⟨hholds, rfl, by simp⟩

theorem safe_setSp (sp : Nat) :
    Safe constants globals (setSp sp) machine fun _ _ ↦ True :=
  fun hholds ↦ ⟨⟨hholds.pool, hholds.onStack, hholds.inGlobal, hholds.popped⟩, rfl, rfl,
    trivial⟩

theorem safe_getSp : Safe constants globals getSp machine fun _ _ ↦ True :=
  fun hholds ↦ ⟨hholds, rfl, rfl, trivial⟩

theorem safe_takeSlot (slot : Nat) :
    Safe constants globals (takeSlot slot) machine fun value _ ↦
      value.Sound constants globals := by
  refine (safe_readSlot slot).bind fun content after _ hcontent ↦ ?_
  cases content with
  | none => exact .throw ⟨rfl, by simp⟩
  | some value =>
    refine (safe_writeSlot (by simp)).bind fun _ _ _ _ ↦ ?_
    exact .pure (hcontent value rfl)

theorem safe_push {value : Value} (h : value.Sound constants globals) :
    Safe constants globals (push value) machine fun _ _ ↦ True := by
  refine safe_getSp.bind fun sp after _ _ ↦ ?_
  have hwrite : Safe constants globals (do writeSlot sp (some value); setSp (sp + 1)) after
      fun _ _ ↦ True := by
    refine (safe_writeSlot ?_).bind fun _ _ _ _ ↦ safe_setSp _
    rintro _ ⟨⟩
    exact h
  by_cases hfull : stackSize ≤ sp
  · simp only [hfull, if_true]
    exact .throw ⟨rfl, by simp⟩
  · simp only [hfull, if_false]
    exact hwrite

theorem safe_pop :
    Safe constants globals pop machine fun value _ ↦ value.Sound constants globals := by
  refine safe_getSp.bind fun sp after _ _ ↦ ?_
  cases sp with
  | zero => exact .throw ⟨rfl, by simp⟩
  | succ top =>
    refine (safe_takeSlot top).bind fun value _ _ hvalue ↦ ?_
    exact (safe_setSp top).bind fun _ _ _ _ ↦ .pure hvalue

theorem safe_takeSlots (slot : Nat) (done : List Value) (count : Nat)
    (h : ∀ value ∈ done, value.Sound constants globals) :
    Safe constants globals (takeSlots slot done count) machine fun values _ ↦
      values.length = done.length + count ∧ ∀ value ∈ values, value.Sound constants globals := by
  induction count generalizing slot done machine with
  | zero => exact .pure ⟨by simp, fun value hmem ↦ h value (List.mem_reverse.mp hmem)⟩
  | succ count ih =>
    refine (safe_takeSlot slot).bind fun value after _ hvalue ↦ ?_
    refine (ih (slot + 1) (value :: done) ?_).mono ?_
    · intro other hmem
      rcases List.mem_cons.mp hmem with rfl | hold
      · exact hvalue
      · exact h other hold
    · rintro values _ ⟨hlength, hvalues⟩
      exact ⟨by rw [hlength, List.length_cons]; omega, hvalues⟩

theorem safe_takeTop (count : Nat) :
    Safe constants globals (takeTop count) machine fun values _ ↦
      values.length = count ∧ ∀ value ∈ values, value.Sound constants globals := by
  refine safe_getSp.bind fun sp after _ _ ↦ ?_
  have htake : Safe constants globals (do
      let values ← takeSlots (sp - count) [] count
      setSp (sp - count)
      return values) after fun values _ ↦
        values.length = count ∧ ∀ value ∈ values, value.Sound constants globals := by
    refine (safe_takeSlots _ _ _ (by simp)).bind fun values _ _ hvalues ↦ ?_
    exact (safe_setSp _).bind fun _ _ _ _ ↦ .pure (by simpa using hvalues)
  by_cases hshort : sp < count
  · simp only [hshort, if_true]
    exact .throw ⟨rfl, by simp⟩
  · simp only [hshort, if_false]
    exact htake

theorem safe_clearSlots (slot count : Nat) :
    Safe constants globals (clearSlots slot count) machine fun _ _ ↦ True := by
  induction count generalizing slot machine with
  | zero => exact .pure trivial
  | succ count ih => exact (safe_writeSlot (by simp)).bind fun _ _ _ _ ↦ ih _

/-! ### The rest of the state -/

theorem safe_getFrame :
    Safe constants globals getFrame machine fun frame _ ↦
      frame = machine.frame :=
  fun hholds ↦ ⟨hholds, rfl, rfl, rfl⟩

theorem safe_constant? (entry : Nat) :
    Safe constants globals (constant? entry) machine fun found _ ↦ found = constants[entry]? :=
  fun hholds ↦ ⟨hholds, rfl, rfl, by rw [hholds.pool]⟩

theorem safe_readGlobal (index : Nat) :
    Safe constants globals (readGlobal index) machine fun content _ ↦
      ∀ value, content = some value → value.Sound constants globals := by
  intro hholds
  unfold readGlobal
  cases h : machine.globals[index]? with
  | none => exact ⟨hholds, rfl, by simp⟩
  | some content =>
    refine ⟨hholds, rfl, rfl, ?_⟩
    rintro value rfl
    exact hholds.inGlobal index value h

theorem safe_writeGlobal {index : Nat} {value : Value} (h : value.Sound constants globals) :
    Safe constants globals (writeGlobal index value) machine fun _ _ ↦ True := by
  intro hholds
  unfold writeGlobal
  by_cases hindex : index < machine.globals.size
  · rw [if_pos hindex]
    refine ⟨⟨hholds.pool, hholds.onStack, ?_, hholds.popped⟩, rfl, rfl, trivial⟩
    intro other held hother
    rw [Array.getElem?_setIfInBounds] at hother
    split at hother
    · cases hother
      exact h
    · exact hholds.inGlobal other held hother
  · rw [if_neg hindex]
    exact ⟨hholds, rfl, by simp⟩

theorem safe_setLastPopped {value : Value} (h : value.Sound constants globals) :
    Safe constants globals (setLastPopped value) machine fun _ _ ↦ True := by
  intro hholds
  refine ⟨⟨hholds.pool, hholds.onStack, hholds.inGlobal, ?_⟩, rfl, rfl, trivial⟩
  rintro _ ⟨⟩
  exact h

theorem safe_finish {value : Value} (h : value.Sound constants globals) :
    Safe constants globals (finish value) machine fun _ _ ↦ True :=
  (safe_setSp 0).bind fun _ _ _ _ ↦ safe_setLastPopped h

theorem safe_freshLabel : Safe constants globals freshLabel machine fun _ _ ↦ True :=
  fun hholds ↦ ⟨⟨hholds.pool, hholds.onStack, hholds.inGlobal, hholds.popped⟩, rfl, rfl,
    trivial⟩

theorem safe_print (text : String) : Safe constants globals (print text) machine fun _ _ ↦ True :=
  fun hholds ↦ ⟨⟨hholds.pool, hholds.onStack, hholds.inGlobal, hholds.popped⟩, rfl, rfl,
    trivial⟩

/-! ### Operations -/

theorem safe_ofExcept {α : Type} {result : Except RunError α} (property : α → Prop)
    (hok : ∀ value, result = .ok value → property value)
    (herror : ∀ error, result = .error error → error.IsOrdinary) :
    Safe constants globals (ofExcept result) machine fun value _ ↦ property value := by
  cases result with
  | ok value => exact .pure (hok value rfl)
  | error error => exact .throw (herror error rfl)

theorem safe_arithmetic {op : Opcode} (hop : op ∈ [.add, .sub, .mul, .div]) :
    Safe constants globals (arithmetic op) machine fun _ _ ↦ True := by
  refine safe_pop.bind fun right _ _ hright ↦ safe_pop.bind fun left _ _ hleft ↦ ?_
  refine safe_freshLabel.bind fun label _ _ _ ↦ ?_
  refine (safe_ofExcept (fun value ↦ value.Sound constants globals)
    (fun value h ↦ Value.sound_operate h)
    fun error h ↦ .of_isOfValues (isOfValues_of_operate hop h)).bind ?_
  exact fun value _ _ hvalue ↦ safe_push hvalue

theorem safe_comparison {op : Opcode} (hop : op ∈ [.equal, .notEqual, .greaterThan]) :
    Safe constants globals (comparison op) machine fun _ _ ↦ True := by
  refine safe_pop.bind fun right _ _ hright ↦ safe_pop.bind fun left _ _ hleft ↦ ?_
  refine (safe_ofExcept (fun _ ↦ True) (fun _ _ ↦ trivial)
    fun error h ↦ .of_isOfValues (isOfValues_of_compare hop h)).bind ?_
  exact fun value _ _ _ ↦ safe_push (.boolean value)

theorem safe_negate : Safe constants globals (do push (← ofExcept (← pop).negate)) machine
    fun _ _ ↦ True := by
  refine safe_pop.bind fun value _ _ _ ↦ ?_
  refine (safe_ofExcept (fun value ↦ value.Sound constants globals)
    (fun _ h ↦ Value.sound_negate h) fun error h ↦ .of_isOfValues (isOfValues_of_negate h)).bind ?_
  exact fun value _ _ hvalue ↦ safe_push hvalue

theorem safe_index : Safe constants globals index machine fun _ _ ↦ True := by
  refine safe_pop.bind fun position _ _ _ ↦ safe_pop.bind fun collection _ _ hcollection ↦ ?_
  refine (safe_ofExcept (fun value ↦ value.Sound constants globals)
    (fun value h ↦ hcollection.lookUp h)
    fun error h ↦ .of_isOfValues (isOfValues_of_lookUp h)).bind ?_
  exact fun value _ _ hvalue ↦ safe_push hvalue

theorem safe_loadConstant {entry : Nat}
    (h : ∃ constant, constants[entry]? = some constant ∧
      (constant.kind = .integer ∨ constant.kind = .string)) :
    Safe constants globals (loadConstant entry) machine fun _ _ ↦ True := by
  obtain ⟨constant, hentry, hkind⟩ := h
  refine (safe_constant? entry).bind fun found _ _ hfound ↦ ?_
  rw [hfound, hentry]
  exact safe_push (Value.sound_of_kind hkind)

theorem safe_loadGlobal (index : Nat) :
    Safe constants globals (loadGlobal index) machine fun _ _ ↦ True := by
  refine (safe_readGlobal index).bind fun content _ _ hcontent ↦ ?_
  cases content with
  | none => exact .throw ⟨rfl, by simp⟩
  | some value => exact safe_push (hcontent value rfl)

theorem safe_storeLocal (index : Nat) :
    Safe constants globals (storeLocal index) machine fun _ _ ↦ True := by
  refine safe_pop.bind fun value _ _ hvalue ↦ safe_getFrame.bind fun frame after _ _ ↦ ?_
  by_cases hfull : stackSize ≤ frame.base + index
  · simp only [hfull, if_true]
    exact .throw ⟨rfl, by simp⟩
  · simp only [hfull, if_false]
    refine safe_writeSlot ?_
    rintro _ ⟨⟩
    exact hvalue

theorem safe_loadLocal (index : Nat) :
    Safe constants globals (loadLocal index) machine fun _ _ ↦ True := by
  refine safe_getFrame.bind fun frame after _ _ ↦ ?_
  by_cases hfull : stackSize ≤ frame.base + index
  · simp only [hfull, if_true]
    exact .throw ⟨rfl, by simp⟩
  · simp only [hfull, if_false]
    refine (safe_readSlot _).bind fun content _ _ hcontent ↦ ?_
    cases content with
    | none => exact .throw ⟨rfl, by simp⟩
    | some value => exact safe_push (hcontent value rfl)

theorem safe_loadFree {index : Nat} (hindex : index < machine.frame.free.length)
    (h : ∀ value ∈ machine.frame.free, value.Sound constants globals) :
    Safe constants globals (loadFree index) machine fun _ _ ↦ True := by
  refine safe_getFrame.bind fun frame _ _ hframe ↦ ?_
  subst hframe
  rw [List.getElem?_eq_getElem hindex]
  exact safe_push (h _ (List.getElem_mem hindex))

theorem safe_loadBuiltin {index : Nat} (h : index < Builtin.all.length) :
    Safe constants globals (loadBuiltin index) machine fun _ _ ↦ True := by
  unfold loadBuiltin
  rw [Builtin.ofIndex?, List.getElem?_eq_getElem h]
  exact safe_push (.builtin _)

theorem safe_makeArray (count : Nat) :
    Safe constants globals (makeArray count) machine fun _ _ ↦ True := by
  refine (safe_takeTop count).bind fun elements _ _ helements ↦ ?_
  exact safe_freshLabel.bind fun label _ _ _ ↦ safe_push (.array helements.2)

theorem safe_makeHash (count : Nat) :
    Safe constants globals (makeHash count) machine fun _ _ ↦ True := by
  refine (safe_takeTop count).bind fun items _ _ hitems ↦ ?_
  refine (safe_ofExcept (fun entries : Entries ↦ ∀ key value,
    (key, value) ∈ entries → value.Sound constants globals)
    (fun entries h ↦ Value.sound_addAll (by simp) hitems.2 h)
    fun error h ↦ .of_isOfValues (isOfValues_of_addAll h)).bind fun entries _ _ hentries ↦ ?_
  exact safe_freshLabel.bind fun label _ _ _ ↦ safe_push (.hash hentries)

theorem safe_makeClosure {entry count : Nat} (hpool : ValidPool constants globals)
    (h : ∃ label routine, constants[entry]? = some (.routine label routine) ∧
      routine.Takes count) :
    Safe constants globals (makeClosure entry count) machine fun _ _ ↦ True := by
  obtain ⟨label, routine, hentry, htakes⟩ := h
  refine (safe_constant? entry).bind fun found _ _ hfound ↦ ?_
  rw [hfound, hentry]
  refine (safe_takeTop count).bind fun free _ _ hfree ↦ ?_
  refine safe_freshLabel.bind fun fresh _ _ _ ↦ safe_push (.closure ⟨⟨entry, label, hentry⟩, ?_⟩
    hfree.2)
  obtain ⟨taken, hroutine⟩ := hpool entry _ hentry
  rw [hfree.1]
  exact hroutine.of_takes htakes

theorem safe_callBuiltin (builtin : Builtin) (count : Nat) :
    Safe constants globals (callBuiltin builtin count) machine fun _ _ ↦ True := by
  refine (safe_takeTop count).bind fun arguments _ _ harguments ↦ ?_
  refine (safe_print _).bind fun _ _ _ _ ↦ safe_freshLabel.bind fun label _ _ _ ↦ ?_
  refine safe_getSp.bind fun sp _ _ _ ↦ ?_
  cases sp with
  | zero => exact .throw ⟨rfl, by simp⟩
  | succ callee =>
    exact (safe_setSp callee).bind fun _ _ _ _ ↦ safe_push (Value.sound_call harguments.2)

end Run

end StackScript
