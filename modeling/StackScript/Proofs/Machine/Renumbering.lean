import StackScript.Proofs.Machine.Halting
import StackScript.Proofs.Value.Renumbering

/-!
Machines under other numbers. Where one machine finds its constants and globals, the other one finds
them beyond the numbers that were used up, and its code says so; in all else the two hold the same
under other labels. They take the same steps, and in the end both halt, or fail with the same error
(`Machine.Renumbered.halts`). A global is written under one number only, since no two numbers become
one.
-/

set_option autoImplicit false
set_option relaxedAutoImplicit false

namespace StackScript

open Instruction (encodeAll size)

variable {gaps : Gaps}

/-- A function at work, under other numbers. -/
structure Frame.Renumbered (gaps : Gaps) (frame other : Frame) : Prop where
  label : other.label = gaps.label frame.label
  routine : frame.routine.Renumbered gaps other.routine
  free : AllRenumbered gaps frame.free other.free
  ip : other.ip = frame.ip
  base : other.base = frame.base

/-- A constant under other numbers. -/
inductive Value.RenumberedConstant (gaps : Gaps) : Value → Value → Prop
  | literal {constant same : Value} (h : constant.Renumbered gaps same) :
    RenumberedConstant gaps constant same
  | routine (label : Label) {routine same : Routine} (h : routine.Renumbered gaps same) :
    RenumberedConstant gaps (.routine label routine) (.routine (gaps.label label) same)

/-- The constants of one pool are in the other one, beyond the entries that were used up. -/
def PoolRenumbered (gaps : Gaps) (constants others : Array Value) : Prop :=
  ∀ (entry : Nat) (constant : Value), constants[entry]? = some constant →
    ∃ same, others[gaps.entries.skip entry]? = some same ∧ constant.RenumberedConstant gaps same

/-- The globals of one array are in the other one, beyond the slots that were used up, as far as
there is room. -/
def GlobalsRenumbered (gaps : Gaps) (globals others : Array (Option Value)) : Prop :=
  ∀ slot, gaps.slots.skip slot < globalsSize →
    Option.Rel (Value.Renumbered gaps) globals[slot]?.join others[gaps.slots.skip slot]?.join

/-- An error names a global by its slot. -/
def RunError.renumber (gaps : Gaps) : RunError → RunError
  | uninitializedGlobal slot => uninitializedGlobal (gaps.slots.skip slot)
  | other => other

structure Machine.Renumbered (gaps : Gaps) (machine other : Machine) : Prop where
  constants : PoolRenumbered gaps machine.constants other.constants
  stackSize : other.stack.size = machine.stack.size
  stack (slot : Nat) : Option.Rel (Value.Renumbered gaps) machine.stack[slot]?.join
    other.stack[slot]?.join
  sp : other.sp = machine.sp
  globals : GlobalsRenumbered gaps machine.globals other.globals
  sizes : machine.globals.size = globalsSize ∧ other.globals.size = globalsSize
  frame : machine.frame.Renumbered gaps other.frame
  callers : List.Forall₂ (Frame.Renumbered gaps) machine.callers.toList other.callers.toList
  lastPopped : Option.Rel (Value.Renumbered gaps) machine.lastPopped other.lastPopped
  serial : other.serial = machine.serial
  output : other.output = machine.output

theorem GlobalsRenumbered.set {globals others : Array (Option Value)} {value same : Value}
    (h : GlobalsRenumbered gaps globals others) (hvalue : value.Renumbered gaps same)
    (hsizes : globals.size = globalsSize ∧ others.size = globalsSize) {slot : Nat}
    (hslot : gaps.slots.skip slot < globalsSize) :
    GlobalsRenumbered gaps (globals.setIfInBounds slot (some value))
      (others.setIfInBounds (gaps.slots.skip slot) (some same)) := by
  intro index hindex
  have hle := gaps.slots.le_skip slot
  by_cases hsame : slot = index
  · subst hsame
    rw [Array.getElem?_setIfInBounds_self_of_lt (by omega),
      Array.getElem?_setIfInBounds_self_of_lt (by omega)]
    exact .some hvalue
  · have hother : gaps.slots.skip slot ≠ gaps.slots.skip index :=
      fun heq ↦ hsame (gaps.slots.skip_injective heq)
    rw [Array.getElem?_setIfInBounds_ne hsame, Array.getElem?_setIfInBounds_ne hother]
    exact h index hindex

namespace Run

variable {machine other : Machine} {α β γ δ : Type} {related : α → γ → Prop}
  {further : β → δ → Prop} {value same : Value}

/-- Both actions do the same, each in its machine: they yield what is related, or fail with the same
error. -/
abbrev Matches (related : α → γ → Prop) (gaps : Gaps) (action : Run α) (counterpart : Run γ)
    (machine other : Machine) : Prop :=
  Mirrors (fun _ ↦ False) action counterpart machine other
    (fun yielded machine given other ↦ related yielded given ∧ machine.Renumbered gaps other)
    fun error machine failure other ↦ failure = error.renumber gaps ∧ machine.Renumbered gaps other

theorem Matches.bind {action : Run α} {counterpart : Run γ} {next : α → Run β} {then' : γ → Run δ}
    (h : Matches related gaps action counterpart machine other)
    (hnext : ∀ yielded given machine other, related yielded given → machine.Renumbered gaps other →
      Matches further gaps (next yielded) (then' given) machine other) :
    Matches further gaps (action >>= next) (counterpart >>= then') machine other :=
  Mirrors.bind h fun yielded machine given other hdone ↦
    hnext yielded given machine other hdone.1 hdone.2

theorem Matches.pure (h : machine.Renumbered gaps other) {yielded : α} {given : γ}
    (hrelated : related yielded given) :
    Matches related gaps (Pure.pure yielded) (Pure.pure given) machine other :=
  Mirrors.pure ⟨hrelated, h⟩

theorem Matches.throw (h : machine.Renumbered gaps other) {error : RunError}
    (herror : error.renumber gaps = error) :
    Matches related gaps (MonadExcept.throw error) (MonadExcept.throw error) machine other :=
  Mirrors.throw ⟨herror.symm, h⟩

theorem Matches.check (h : machine.Renumbered gaps other) {c : Prop} [Decidable c]
    {error : RunError} {next : PUnit → Run α} {then' : PUnit → Run γ}
    (herror : error.renumber gaps = error)
    (hnext : ¬c → Matches related gaps (next ⟨⟩) (then' ⟨⟩) machine other) :
    Matches related gaps (if c then (do next (← MonadExcept.throw error)) else next ⟨⟩)
      (if c then (do then' (← MonadExcept.throw error)) else then' ⟨⟩) machine other :=
  Mirrors.check ⟨herror.symm, h⟩ hnext

/-! ### Slots -/

theorem matches_getSp (h : machine.Renumbered gaps other) :
    Matches Eq gaps getSp getSp machine other :=
  .of_ok rfl rfl ⟨h.sp.symm, h⟩

theorem matches_setSp (h : machine.Renumbered gaps other) (sp : Nat) :
    Matches Eq gaps (setSp sp) (setSp sp) machine other :=
  .of_ok rfl rfl ⟨rfl, { h with sp := rfl }⟩

theorem readSlot_eq (machine : Machine) (slot : Nat) :
    readSlot slot machine = if slot < machine.stack.size then .ok machine.stack[slot]?.join machine
      else .error .outOfRange machine := by
  unfold readSlot
  split
  · next content hcontent =>
    rw [if_pos (Array.getElem?_eq_some_iff.mp hcontent).1, hcontent, Option.join_some]
  · next hnone => rw [if_neg (Nat.not_lt_of_le (Array.getElem?_eq_none_iff.mp hnone))]

theorem matches_readSlot (h : machine.Renumbered gaps other) (slot : Nat) :
    Matches (Option.Rel (Value.Renumbered gaps)) gaps (readSlot slot) (readSlot slot) machine
      other := by
  have hread := readSlot_eq machine slot
  have hother := readSlot_eq other slot
  rw [h.stackSize] at hother
  by_cases hslot : slot < machine.stack.size
  · exact .of_ok (hread.trans (if_pos hslot)) (hother.trans (if_pos hslot)) ⟨h.stack slot, h⟩
  · exact .of_error (hread.trans (if_neg hslot)) (hother.trans (if_neg hslot)) ⟨rfl, h⟩

theorem matches_writeSlot (h : machine.Renumbered gaps other) (slot : Nat)
    {content held : Option Value} (hcontent : Option.Rel (Value.Renumbered gaps) content held) :
    Matches Eq gaps (writeSlot slot content) (writeSlot slot held) machine other := by
  by_cases hslot : slot < machine.stack.size
  · refine .of_ok (if_pos hslot) (if_pos (h.stackSize ▸ hslot))
      ⟨rfl, { h with stackSize := ?_, stack := fun index ↦ ?_ }⟩
    · simpa only [Array.size_setIfInBounds] using h.stackSize
    dsimp only
    by_cases hsame : slot = index
    · subst hsame
      rw [Array.getElem?_setIfInBounds_self_of_lt hslot,
        Array.getElem?_setIfInBounds_self_of_lt (h.stackSize ▸ hslot)]
      exact hcontent
    · rw [Array.getElem?_setIfInBounds_ne hsame, Array.getElem?_setIfInBounds_ne hsame]
      exact h.stack index
  · exact .of_error (if_neg hslot) (if_neg (h.stackSize ▸ hslot)) ⟨rfl, h⟩

theorem matches_takeSlot (h : machine.Renumbered gaps other) (slot : Nat) :
    Matches (Value.Renumbered gaps) gaps (takeSlot slot) (takeSlot slot) machine other := by
  refine (matches_readSlot h slot).bind ?_
  rintro _ _ machine other (hvalue | _) h
  · exact (matches_writeSlot h slot .none).bind fun _ _ _ _ _ h ↦ .pure h hvalue
  · exact .throw h rfl

theorem matches_push (h : machine.Renumbered gaps other) (hvalue : value.Renumbered gaps same) :
    Matches Eq gaps (push value) (push same) machine other := by
  refine (matches_getSp h).bind ?_
  rintro sp _ machine other rfl h
  refine .check h rfl fun _ ↦ ?_
  exact (matches_writeSlot h sp (.some hvalue)).bind fun _ _ _ _ _ h ↦ matches_setSp h _

theorem matches_pop (h : machine.Renumbered gaps other) :
    Matches (Value.Renumbered gaps) gaps pop pop machine other := by
  refine (matches_getSp h).bind ?_
  rintro (_ | top) _ machine other rfl h
  · exact .throw h rfl
  · refine (matches_takeSlot h top).bind fun value same _ _ hvalue h ↦ ?_
    exact (matches_setSp h top).bind fun _ _ _ _ _ h ↦ .pure h hvalue

theorem matches_takeSlots (h : machine.Renumbered gaps other) (slot : Nat)
    {done same : List Value} (hdone : AllRenumbered gaps done same) (count : Nat) :
    Matches (AllRenumbered gaps) gaps (takeSlots slot done count) (takeSlots slot same count)
      machine
      other := by
  induction count generalizing slot done same machine other with
  | zero => exact .pure h (List.rel_reverse hdone)
  | succ count ih =>
    exact (matches_takeSlot h slot).bind fun _ _ _ _ hvalue h ↦ ih h _ (.cons hvalue hdone)

theorem matches_takeTop (h : machine.Renumbered gaps other) (count : Nat) :
    Matches (AllRenumbered gaps) gaps (takeTop count) (takeTop count) machine other := by
  refine (matches_getSp h).bind ?_
  rintro sp _ machine other rfl h
  refine .check h rfl fun _ ↦ ?_
  refine (matches_takeSlots h _ .nil count).bind fun values same _ _ hvalues h ↦ ?_
  exact (matches_setSp h _).bind fun _ _ _ _ _ h ↦ .pure h hvalues

theorem matches_clearSlots (h : machine.Renumbered gaps other) (slot count : Nat) :
    Matches Eq gaps (clearSlots slot count) (clearSlots slot count) machine other := by
  induction count generalizing slot machine other with
  | zero => exact .pure h rfl
  | succ count ih =>
    exact (matches_writeSlot h slot .none).bind fun _ _ _ _ _ h ↦ ih h _

/-! ### The rest of the state -/

theorem matches_setIp (h : machine.Renumbered gaps other) (ip : Nat) :
    Matches Eq gaps (setIp ip) (setIp ip) machine other :=
  .of_ok rfl rfl ⟨rfl, { h with frame := { h.frame with ip := rfl } }⟩

theorem matches_getFrame (h : machine.Renumbered gaps other) :
    Matches (Frame.Renumbered gaps) gaps getFrame getFrame machine other :=
  .of_ok rfl rfl ⟨h.frame, h⟩

theorem isEmpty_callers (h : machine.Renumbered gaps other) :
    other.callers.isEmpty = machine.callers.isEmpty := by
  have hlength := h.callers.length_eq
  simp only [Array.length_toList] at hlength
  simp [Array.isEmpty, hlength]

theorem matches_atTopLevel (h : machine.Renumbered gaps other) :
    Matches Eq gaps atTopLevel atTopLevel machine other :=
  .of_ok rfl rfl ⟨(isEmpty_callers h).symm, h⟩

theorem matches_setLastPopped (h : machine.Renumbered gaps other)
    (hvalue : value.Renumbered gaps same) :
    Matches Eq gaps (setLastPopped value) (setLastPopped same) machine other :=
  .of_ok rfl rfl ⟨rfl, { h with lastPopped := .some hvalue }⟩

/-- The labels of new values are the same ones. -/
theorem matches_freshLabel (h : machine.Renumbered gaps other) :
    Matches (fun label fresh ↦ fresh = gaps.label label) gaps freshLabel freshLabel machine other :=
  .of_ok rfl rfl ⟨congrArg Label.heap h.serial, { h with serial := congrArg (· + 1) h.serial }⟩

theorem matches_print (h : machine.Renumbered gaps other) (text : String) :
    Matches Eq gaps (print text) (print text) machine other :=
  .of_ok rfl rfl ⟨rfl, { h with output := congrArg (· ++ text) h.output }⟩

theorem matches_ofExcept (h : machine.Renumbered gaps other) {first : Except RunError α}
    {second : Except RunError γ} (hagree : Agree related first second)
    (herror : ∀ error, first = .error error → error.renumber gaps = error) :
    Matches related gaps (ofExcept first) (ofExcept second) machine other := by
  cases first <;> cases second
  · obtain rfl : _ = _ := hagree
    exact .throw h (herror _ rfl)
  · exact hagree.elim
  · exact hagree.elim
  · exact .pure h hagree

theorem renumber_of_isOfValues {error : RunError} (h : error.isOfValues) :
    error.renumber gaps = error := by
  cases error <;> first | rfl | cases h

theorem matches_constant? (h : machine.Renumbered gaps other) {entry : Nat} {constant : Value}
    (hconstant : machine.constants[entry]? = some constant) :
    Matches (fun found given ↦ found = some constant ∧ ∃ counterpart, given = some counterpart ∧
      constant.RenumberedConstant gaps counterpart) gaps (constant? entry)
      (constant? (gaps.entries.skip entry)) machine other := by
  obtain ⟨counterpart, hsame, hrenumbered⟩ := h.constants entry constant hconstant
  exact .of_ok rfl rfl ⟨⟨hconstant, counterpart, hsame, hrenumbered⟩, h⟩

theorem readGlobal_eq {slot : Nat} (h : slot < machine.globals.size) :
    readGlobal slot machine = .ok machine.globals[slot]?.join machine := by
  unfold readGlobal
  rw [Array.getElem?_eq_getElem h]
  rfl

section Globals

variable {slot : Nat} (h : machine.Renumbered gaps other)
  (hslot : gaps.slots.skip slot < globalsSize)

include h hslot

theorem matches_readGlobal :
    Matches (Option.Rel (Value.Renumbered gaps)) gaps (readGlobal slot)
      (readGlobal (gaps.slots.skip slot)) machine other := by
  have hbefore := Nat.lt_of_le_of_lt (gaps.slots.le_skip slot) hslot
  rw [← h.sizes.1] at hbefore
  have hbehind := hslot
  rw [← h.sizes.2] at hbehind
  exact .of_ok (readGlobal_eq hbefore) (readGlobal_eq hbehind) ⟨h.globals slot hslot, h⟩

/-- Slots are written under one number only, so that no other global changes. -/
theorem matches_writeGlobal (hvalue : value.Renumbered gaps same) :
    Matches Eq gaps (writeGlobal slot value) (writeGlobal (gaps.slots.skip slot) same) machine
      other := by
  have hbefore := Nat.lt_of_le_of_lt (gaps.slots.le_skip slot) hslot
  rw [← h.sizes.1] at hbefore
  have hbehind := hslot
  rw [← h.sizes.2] at hbehind
  refine .of_ok (if_pos hbefore) (if_pos hbehind)
    ⟨rfl, { h with globals := h.globals.set hvalue h.sizes hslot, sizes := ?_ }⟩
  simpa only [Array.size_setIfInBounds] using h.sizes

theorem matches_loadGlobal :
    Matches Eq gaps (loadGlobal slot) (loadGlobal (gaps.slots.skip slot)) machine other := by
  refine (matches_readGlobal h hslot).bind ?_
  rintro _ _ machine other (hvalue | _) h
  · exact matches_push h hvalue
  · exact Mirrors.throw ⟨rfl, h⟩

end Globals

/-! ### Operations -/

theorem matches_arithmetic (h : machine.Renumbered gaps other) {op : Opcode}
    (hop : op ∈ [.add, .sub, .mul, .div]) :
    Matches Eq gaps (arithmetic op) (arithmetic op) machine other := by
  refine (matches_pop h).bind fun right _ _ _ hright h ↦ ?_
  refine (matches_pop h).bind fun left _ _ _ hleft h ↦ ?_
  refine (matches_freshLabel h).bind ?_
  rintro label _ _ _ rfl h
  refine (matches_ofExcept h (hleft.operate hright label op) fun error herror ↦ ?_).bind
    fun _ _ _ _ hvalue h ↦ matches_push h hvalue
  exact renumber_of_isOfValues (isOfValues_of_operate hop herror)

theorem matches_comparison (h : machine.Renumbered gaps other) {op : Opcode}
    (hop : op ∈ [.equal, .notEqual, .greaterThan]) :
    Matches Eq gaps (comparison op) (comparison op) machine other := by
  refine (matches_pop h).bind fun right _ _ _ hright h ↦ ?_
  refine (matches_pop h).bind fun left _ _ _ hleft h ↦ ?_
  have hagree : Agree Eq (left.compare op right) (left.compare op right) := by
    cases left.compare op right <;> rfl
  rw [hleft.compare_eq hright]
  refine (matches_ofExcept h hagree fun error herror ↦ ?_).bind ?_
  · exact renumber_of_isOfValues (isOfValues_of_compare hop herror)
  · rintro result _ _ _ rfl h
    exact matches_push h (.boolean result)

theorem matches_negate (h : machine.Renumbered gaps other) :
    Matches Eq gaps (do push (← ofExcept (← pop).negate)) (do push (← ofExcept (← pop).negate))
      machine other := by
  refine (matches_pop h).bind fun value _ _ _ hvalue h ↦ ?_
  refine (matches_ofExcept h hvalue.negate fun error herror ↦ ?_).bind
    fun _ _ _ _ hresult h ↦ matches_push h hresult
  exact renumber_of_isOfValues (isOfValues_of_negate herror)

theorem matches_index (h : machine.Renumbered gaps other) :
    Matches Eq gaps index index machine other := by
  refine (matches_pop h).bind fun position _ _ _ hposition h ↦ ?_
  refine (matches_pop h).bind fun collection _ _ _ hcollection h ↦ ?_
  refine (matches_ofExcept h (hcollection.lookUp hposition) fun error herror ↦ ?_).bind
    fun _ _ _ _ hfound h ↦ matches_push h hfound
  exact renumber_of_isOfValues (isOfValues_of_lookUp herror)

theorem matches_loadConstant (h : machine.Renumbered gaps other) {entry : Nat}
    (hentry : ∃ constant, machine.constants[entry]? = some constant ∧
      (constant.kind = .integer ∨ constant.kind = .string)) :
    Matches Eq gaps (loadConstant entry) (loadConstant (gaps.entries.skip entry)) machine
      other := by
  obtain ⟨constant, hconstant, hkind⟩ := hentry
  refine (matches_constant? h hconstant).bind ?_
  rintro _ _ machine other ⟨rfl, same, rfl, hrenumbered⟩ h
  cases hrenumbered with
  | literal hvalue => exact matches_push h hvalue
  | routine => simp [Value.kind] at hkind

theorem matches_storeLocal (h : machine.Renumbered gaps other) (index : Nat) :
    Matches Eq gaps (storeLocal index) (storeLocal index) machine other := by
  refine (matches_pop h).bind fun value same _ _ hvalue h ↦ (matches_getFrame h).bind ?_
  intro frame counterpart machine other hframe h
  rw [hframe.base]
  exact .check h rfl fun _ ↦ matches_writeSlot h _ (.some hvalue)

theorem matches_loadLocal (h : machine.Renumbered gaps other) (index : Nat) :
    Matches Eq gaps (loadLocal index) (loadLocal index) machine other := by
  refine (matches_getFrame h).bind fun frame counterpart machine other hframe h ↦ ?_
  rw [hframe.base]
  refine .check h rfl fun _ ↦ (matches_readSlot h _).bind ?_
  rintro _ _ machine other (hvalue | _) h
  · exact matches_push h hvalue
  · exact .throw h rfl

theorem matches_loadFree (h : machine.Renumbered gaps other) (index : Nat) :
    Matches Eq gaps (loadFree index) (loadFree index) machine other := by
  refine (matches_getFrame h).bind fun frame counterpart machine other hframe h ↦ ?_
  have hfound := rel_getElem? hframe.free index
  generalize frame.free[index]? = found at hfound ⊢
  generalize counterpart.free[index]? = given at hfound ⊢
  cases hfound with
  | some hvalue => exact matches_push h hvalue
  | none => exact .throw h rfl

theorem matches_currentClosure (h : machine.Renumbered gaps other) :
    Matches Eq gaps (do push (← getFrame).closure) (do push (← getFrame).closure) machine
      other := by
  refine (matches_getFrame h).bind fun frame counterpart machine other hframe h ↦ ?_
  refine matches_push h ?_
  rw [Frame.closure, Frame.closure, hframe.label]
  exact .closure _ hframe.routine hframe.free

theorem matches_loadBuiltin (h : machine.Renumbered gaps other) (index : Nat) :
    Matches Eq gaps (loadBuiltin index) (loadBuiltin index) machine other := by
  unfold loadBuiltin
  cases Builtin.ofIndex? index with
  | none => exact .throw h rfl
  | some builtin => exact matches_push h (.builtin builtin)

theorem matches_makeArray (h : machine.Renumbered gaps other) (count : Nat) :
    Matches Eq gaps (makeArray count) (makeArray count) machine other := by
  refine (matches_takeTop h count).bind fun elements _ _ _ helements h ↦ ?_
  refine (matches_freshLabel h).bind ?_
  rintro label _ _ _ rfl h
  exact matches_push h (.array label helements)

theorem matches_makeHash (h : machine.Renumbered gaps other) (count : Nat) :
    Matches Eq gaps (makeHash count) (makeHash count) machine other := by
  refine (matches_takeTop h count).bind fun items _ _ _ hitems h ↦ ?_
  have hadded := matches_ofExcept h (Value.Renumbered.addAll hitems) fun error herror ↦
    renumber_of_isOfValues (isOfValues_of_addAll herror)
  refine hadded.bind fun entries same _ _ hentries h ↦ (matches_freshLabel h).bind ?_
  rintro label _ _ _ rfl h
  exact matches_push h (hentries label)

theorem matches_makeClosure (h : machine.Renumbered gaps other) {entry : Nat}
    (hentry : ∃ label routine, machine.constants[entry]? = some (.routine label routine))
    (count : Nat) :
    Matches Eq gaps (makeClosure entry count) (makeClosure (gaps.entries.skip entry) count) machine
      other := by
  obtain ⟨own, routine, hconstant⟩ := hentry
  refine (matches_constant? h hconstant).bind ?_
  rintro _ _ machine other ⟨rfl, _, rfl, hrenumbered⟩ h
  cases hrenumbered with
  | literal hvalue => cases hvalue
  | routine _ hroutine =>
    refine (matches_takeTop h count).bind fun free _ _ _ hfree h ↦ ?_
    refine (matches_freshLabel h).bind ?_
    rintro label _ _ _ rfl h
    exact matches_push h (.closure label hroutine hfree)

/-! ### Calls -/

theorem matches_callBuiltin (h : machine.Renumbered gaps other) (builtin : Builtin) (count : Nat) :
    Matches Eq gaps (callBuiltin builtin count) (callBuiltin builtin count) machine other := by
  refine (matches_takeTop h count).bind fun arguments same _ _ harguments h ↦ ?_
  rw [Value.Renumbered.printed_eq harguments]
  refine (matches_print h _).bind fun _ _ _ _ _ h ↦ (matches_freshLabel h).bind ?_
  rintro label _ _ _ rfl h
  refine (matches_getSp h).bind ?_
  rintro (_ | callee) _ machine other rfl h
  · exact .throw h rfl
  · refine (matches_setSp h callee).bind fun _ _ _ _ _ h ↦ ?_
    exact matches_push h (.call harguments label builtin)

theorem matches_callClosure (h : machine.Renumbered gaps other) (label : Label)
    {routine counterpart : Routine} (hroutine : routine.Renumbered gaps counterpart)
    {free same : List Value} (hfree : AllRenumbered gaps free same) (count : Nat) :
    Matches Eq gaps (callClosure label routine free count)
      (callClosure (gaps.label label) counterpart same count) machine other := by
  have hcallers : other.callers.size = machine.callers.size := by
    simpa only [Array.length_toList] using h.callers.length_eq.symm
  unfold callClosure
  rw [hroutine.parameters, hroutine.locals]
  refine .check h rfl fun _ ↦ .of_eq (get_bind _) (get_bind _) ?_
  rw [hcallers, h.sp]
  refine Matches.check h rfl fun _ ↦ .check h rfl fun _ ↦ .check h rfl fun _ ↦ ?_
  refine (matches_clearSlots h _ _).bind fun _ _ _ _ _ h ↦ .of_ok rfl rfl ⟨rfl, { h with
    sp := rfl
    frame := ⟨rfl, hroutine, hfree, rfl, rfl⟩
    callers := ?_ }⟩
  simp only [Array.toList_push]
  exact List.rel_append h.callers (.cons h.frame .nil)

theorem matches_call (h : machine.Renumbered gaps other) (count : Nat) :
    Matches Eq gaps (call count) (call count) machine other := by
  refine (matches_getSp h).bind ?_
  rintro sp _ machine other rfl h
  refine .check h rfl fun _ ↦ (matches_readSlot h _).bind ?_
  rintro _ _ machine other (hcallee | _) h
  · rename_i callee same
    have hkind := hcallee.kind_eq
    cases callee with
    | closure label routine free =>
      cases hcallee with
      | closure _ hroutine hfree =>
        exact matches_callClosure h label hroutine (allRenumbered_iff.mpr hfree) count
    | builtin builtin =>
      cases hcallee
      exact matches_callBuiltin h builtin count
    | _ =>
      cases hcallee
      all_goals exact .throw h rfl
  · exact .throw h rfl

theorem matches_returnFromCall (h : machine.Renumbered gaps other)
    (hvalue : value.Renumbered gaps same) :
    Matches Eq gaps (returnFromCall value) (returnFromCall same) machine other := by
  have hfirst := returnFromCall_eq machine value
  have hsecond := returnFromCall_eq other same
  have hsize := h.callers.length_eq
  simp only [Array.length_toList] at hsize
  have hback := rel_getElem? h.callers (machine.callers.size - 1)
  rw [Array.getElem?_toList, Array.getElem?_toList, ← Array.back?_eq_getElem?, hsize,
    ← Array.back?_eq_getElem?] at hback
  have hpop : List.Forall₂ (Frame.Renumbered gaps) machine.callers.pop.toList
      other.callers.pop.toList := by
    rw [Array.toList_pop, Array.toList_pop, List.dropLast_eq_take, List.dropLast_eq_take,
      h.callers.length_eq]
    exact List.forall₂_take _ h.callers
  generalize machine.callers.back? = caller at hback hfirst
  generalize other.callers.back? = counterpart at hback hsecond
  cases hback with
  | none => exact .of_error hfirst hsecond ⟨rfl, h⟩
  | some hcaller =>
    rw [h.frame.base] at hsecond
    cases hbase : machine.frame.base with
    | zero =>
      rw [hbase] at hfirst hsecond
      exact .of_error hfirst hsecond ⟨rfl, { h with frame := hcaller, callers := hpop }⟩
    | succ callee =>
      rw [hbase] at hfirst hsecond
      dsimp only at hfirst hsecond
      exact .of_eq hfirst hsecond
        (matches_push { h with sp := rfl, frame := hcaller, callers := hpop } hvalue)

theorem matches_returnWith (h : machine.Renumbered gaps other)
    (hvalue : value.Renumbered gaps same) :
    Matches Eq gaps (returnWith value) (returnWith same) machine other := by
  refine (matches_atTopLevel h).bind ?_
  rintro (_ | _) _ machine other rfl h
  · exact (matches_returnFromCall h hvalue).bind fun _ _ _ _ _ h ↦ .pure h rfl
  · have hfinish : Matches Eq gaps (finish value) (finish same) machine other :=
      (matches_setSp h 0).bind fun _ _ _ _ _ h ↦ matches_setLastPopped h hvalue
    exact hfinish.bind fun _ _ _ _ _ h ↦ .pure h rfl

/-! ### Instructions -/

theorem Matches.goOn {action counterpart : Run Unit}
    (h : Matches Eq gaps action counterpart machine other) :
    Matches Eq gaps (goOn action) (goOn counterpart) machine other :=
  h.bind fun _ _ _ _ _ h ↦ .pure h rfl

theorem matches_perform (h : machine.Renumbered gaps other) {instruction : Instruction}
    {limits : Limits} (hfits : (instruction.renumber gaps).Fits)
    (hvalid : instruction.Valid machine.constants limits) :
    Matches Eq gaps (perform instruction) (perform (instruction.renumber gaps)) machine other := by
  have hbefore := hfits.of_renumber
  obtain ⟨opcode, operands⟩ := instruction
  cases opcode
  case closure =>
    obtain ⟨entry, count, rfl, _⟩ := hbefore.eq_pair rfl
    obtain ⟨label, routine, hentry, _⟩ := hvalid
    exact (matches_makeClosure h ⟨label, routine, hentry⟩ count).goOn
  case constant =>
    obtain ⟨entry, rfl, _⟩ := hbefore.eq_single rfl
    exact (matches_loadConstant h hvalid).goOn
  case setGlobal =>
    obtain ⟨slot, rfl, _⟩ := hbefore.eq_single rfl
    obtain ⟨_, ⟨⟩, hslot⟩ := hfits.eq_single rfl
    exact ((matches_pop h).bind fun _ _ _ _ hvalue h ↦ matches_writeGlobal h hslot hvalue).goOn
  case getGlobal =>
    obtain ⟨slot, rfl, _⟩ := hbefore.eq_single rfl
    obtain ⟨_, ⟨⟩, hslot⟩ := hfits.eq_single rfl
    exact (matches_loadGlobal h hslot).goOn
  case jump =>
    obtain ⟨target, rfl, _⟩ := hbefore.eq_single rfl
    exact (matches_setIp h target).goOn
  case jumpNotTruthy =>
    obtain ⟨target, rfl, _⟩ := hbefore.eq_single rfl
    refine Matches.goOn ((matches_pop h).bind fun value same _ _ hvalue h ↦ ?_)
    rw [hvalue.isTruthy_eq]
    split
    · exact matches_setIp h target
    · exact .pure h rfl
  case setLocal =>
    obtain ⟨index, rfl, _⟩ := hbefore.eq_single rfl
    exact (matches_storeLocal h index).goOn
  case getLocal =>
    obtain ⟨index, rfl, _⟩ := hbefore.eq_single rfl
    exact (matches_loadLocal h index).goOn
  case getFree =>
    obtain ⟨index, rfl, _⟩ := hbefore.eq_single rfl
    exact (matches_loadFree h index).goOn
  case getBuiltin =>
    obtain ⟨index, rfl, _⟩ := hbefore.eq_single rfl
    exact (matches_loadBuiltin h index).goOn
  case array =>
    obtain ⟨count, rfl, _⟩ := hbefore.eq_single rfl
    exact (matches_makeArray h count).goOn
  case hash =>
    obtain ⟨count, rfl, _⟩ := hbefore.eq_single rfl
    exact (matches_makeHash h count).goOn
  case call =>
    obtain ⟨count, rfl, _⟩ := hbefore.eq_single rfl
    exact (matches_call h count).goOn
  all_goals
    obtain rfl := hbefore.eq_nil rfl
  case add | sub | mul | div => exact (matches_arithmetic h (by decide)).goOn
  case equal | notEqual | greaterThan => exact (matches_comparison h (by decide)).goOn
  case bang =>
    refine Matches.goOn ((matches_pop h).bind fun value same _ _ hvalue h ↦ ?_)
    rw [hvalue.isTruthy_eq]
    exact matches_push h (.boolean _)
  case minus => exact (matches_negate h).goOn
  case true | false => exact (matches_push h (.boolean _)).goOn
  case null => exact (matches_push h .null).goOn
  case pop =>
    exact ((matches_pop h).bind fun _ _ _ _ hvalue h ↦ matches_setLastPopped h hvalue).goOn
  case index => exact (matches_index h).goOn
  case currentClosure => exact (matches_currentClosure h).goOn
  case returnValue => exact (matches_pop h).bind fun _ _ _ _ hvalue h ↦ matches_returnWith h hvalue
  case ret => exact matches_returnWith h .null

end Run

/-! ### Runs -/

/-- A function at work stands at the end of its code in both machines, or at an instruction that is
in the other one under other numbers. -/
theorem Frame.Renumbered.instruction {constants : Array Value} {globals longest : Nat}
    {inFunction : Bool} {frame other : Frame} (h : frame.Renumbered gaps other)
    (hsound : frame.Sound constants globals longest inFunction) :
    (frame.ip = frame.routine.code.size ∧ other.ip = other.routine.code.size) ∨
      ∃ instruction limits, Loaded frame.routine.code frame.ip [instruction] ∧
        Loaded other.routine.code other.ip [instruction.renumber gaps] ∧
        (instruction.renumber gaps).Fits ∧ instruction.Valid constants limits := by
  obtain ⟨done, rest, hcode, hip, hwell⟩ := hsound.code
  obtain ⟨code, hbytes, hother, hfits⟩ := h.routine.code
  obtain rfl := Instruction.eq_of_encodeAll_eq hwell.fits
    (fun instruction hmem ↦ (hfits instruction hmem).of_renumber) (hcode.symm.trans hbytes)
  have hplace : other.ip = size (done.map (.renumber gaps)) := by
    rw [h.ip, hip, Instruction.size_map_renumber]
  cases rest with
  | nil =>
    left
    rw [hip, hplace, ← Array.length_toList, ← Array.length_toList, hcode, hother]
    simp
  | cons instruction rest =>
    right
    have hmem : instruction ∈ done ++ instruction :: rest := by simp
    refine ⟨instruction, _, ⟨encodeAll done, encodeAll rest, by simp [hcode], by simp [hip]⟩,
      ⟨encodeAll (done.map (.renumber gaps)), encodeAll (rest.map (.renumber gaps)),
        by simp [hother], by simp [hplace]⟩, hfits _ hmem, hwell.valid _ hmem⟩

namespace Machine

variable {constants : Array Value} {globals longest count : Nat} {machine other last : Machine}
  {result : EStateM.Result RunError Machine Unit}

theorem Renumbered.advance (h : machine.Renumbered gaps other) (count : Nat) :
    (machine.advance count).Renumbered gaps (other.advance count) :=
  { h with frame := { h.frame with ip := congrArg (· + count) h.frame.ip } }

/-- A step from a machine that is in order. -/
theorem Renumbered.step (h : machine.Renumbered gaps other)
    (hsound : machine.Sound constants globals longest) :
    Run.Matches Eq gaps Run.step Run.step machine other := by
  rcases h.frame.instruction hsound.frame with
    ⟨hend, hother⟩ | ⟨instruction, limits, hloaded, hother, hfits, hvalid⟩
  · have hfirst := Run.step_at_end hend
    have hsecond := Run.step_at_end hother
    rw [Run.isEmpty_callers h] at hsecond
    by_cases htop : machine.callers.isEmpty
    · rw [if_pos htop] at hfirst hsecond
      exact .of_ok hfirst hsecond ⟨rfl, h⟩
    · rw [if_neg htop] at hfirst hsecond
      exact .of_eq hfirst hsecond (Run.matches_returnFromCall h .null).goOn
  · have hsecond := Run.step_eq_perform hother hfits
    rw [Instruction.length_renumber] at hsecond
    refine .of_eq (Run.step_eq_perform hloaded hfits.of_renumber) hsecond ?_
    rw [← hsound.holds.pool] at hvalid
    exact Run.matches_perform (h.advance _) hfits hvalid

/-- Both runs end, or fail with the same error, and the machines that they leave hold the same. -/
inductive EndsRenumbered (gaps : Gaps) :
    EStateM.Result RunError Machine Unit → EStateM.Result RunError Machine Unit → Prop
  | ok {machine other : Machine} (h : machine.Renumbered gaps other) :
    EndsRenumbered gaps (.ok () machine) (.ok () other)
  | error (error : RunError) {machine other : Machine} (h : machine.Renumbered gaps other) :
    EndsRenumbered gaps (.error error machine) (.error (error.renumber gaps) other)

section Runs

variable (hpool : ValidPool constants globals) (hlongest : CodeWithin constants longest)

include hpool hlongest

theorem Renumbered.reaches (h : machine.Renumbered gaps other)
    (hsound : machine.Sound constants globals longest) (hreaches : machine.Reaches count last) :
    ∃ same, other.Reaches count same ∧ last.Renumbered gaps same := by
  induction hreaches generalizing other with
  | here _ => exact ⟨other, .here _, h⟩
  | next hstep _ ih =>
    obtain ⟨_, _, hsecond, rfl, hnext⟩ := (h.step hsound).follows _ _ hstep
    obtain ⟨same, hrest, hlast⟩ := ih hnext (hsound.next hpool hlongest hstep)
    exact ⟨same, .next hsecond hrest, hlast⟩

/-- From machines that hold the same under other numbers, both runs come to the same. -/
theorem Renumbered.halts (h : machine.Renumbered gaps other)
    (hsound : machine.Sound constants globals longest) (hhalts : machine.Halts count result) :
    ∃ same, other.Halts count same ∧ EndsRenumbered gaps result same := by
  obtain ⟨last, hreaches, hstops⟩ := hhalts
  obtain ⟨same, hsame, hlast⟩ := h.reaches hpool hlongest hsound hreaches
  have hstep := hlast.step (hsound.reaches hpool hlongest hreaches)
  cases hstops with
  | finished hfirst =>
    obtain ⟨_, after, hother, rfl, hend⟩ := hstep.follows _ _ hfirst
    exact ⟨_, ⟨same, hsame, .finished hother⟩, .ok hend⟩
  | failed hfirst =>
    obtain ⟨_, after, hother, rfl, hend⟩ := (hstep.fails _ _ hfirst).resolve_left id
    exact ⟨_, ⟨same, hsame, .failed hother⟩, .error _ hend⟩

end Runs

end Machine

end StackScript
