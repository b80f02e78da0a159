import StackScript.Proofs.Machine.Invariant
import StackScript.Proofs.Value.Identity

/-!
Machines on which no label is given twice. A machine takes labels from a count that never goes back,
and gives each of them to the value that is built next, if to any. So each step that a machine takes
extends the labelling of its values by one label at most (`Machine.Labelled.step`), and a value
stays under its label wherever it goes: to a slot, a global, into other values, or with a function
that captures it.
-/

set_option autoImplicit false
set_option relaxedAutoImplicit false

namespace StackScript

/-! ### Labelled machines -/

/-- The values that a function at work has apart from its slots, and inside of others itself. -/
structure Frame.Labelled (labelling : Labelling) (inFunction : Bool) (frame : Frame) : Prop where
  free : ∀ value ∈ frame.free, value.Labelled labelling
  closure : inFunction → frame.closure.Labelled labelling

/-- Each constant has the label of its entry, if it has one. -/
def Stamped (constants : Array Value) : Prop :=
  ∀ (entry : Nat) (constant : Value) (label : Label), constants[entry]? = some constant →
    constant.label? = some label → label = .literal entry

/-- The labels of the pool are those of its constants, and those from the number on are free. -/
structure Labelling.Records (labelling : Labelling) (constants : Array Value) (serial : Nat) :
    Prop where
  literals (entry : Nat) : labelling (.literal entry) = constants[entry]?
  stamped : Stamped constants
  fresh (later : Nat) : serial ≤ later → labelling (.heap later) = none

/-- All values that a machine has are labelled, and the labels that it will give out are free. -/
structure Machine.Labelled (labelling : Labelling) (machine : Machine) : Prop where
  records : labelling.Records machine.constants machine.serial
  onStack (slot : Nat) (value : Value) :
    machine.stack[slot]? = some (some value) → value.Labelled labelling
  inGlobal (slot : Nat) (value : Value) :
    machine.globals[slot]? = some (some value) → value.Labelled labelling
  popped (value : Value) : machine.lastPopped = some value → value.Labelled labelling
  frame : machine.frame.Labelled labelling !machine.callers.isEmpty
  callers (i : Nat) (frame : Frame) : machine.callers[i]? = some frame →
    frame.Labelled labelling (decide (0 < i))

/-- All values are labelled, if some labels are added. -/
def Machine.Relabelled (labelling : Labelling) (machine : Machine) : Prop :=
  ∃ more, labelling.Grows more ∧ machine.Labelled more

variable {labelling more : Labelling} {machine : Machine} {value : Value}

theorem Frame.Labelled.mono {inFunction : Bool} {frame : Frame}
    (h : frame.Labelled labelling inFunction) (hgrows : labelling.Grows more) :
    frame.Labelled more inFunction :=
  ⟨fun value hmem ↦ (h.free value hmem).mono hgrows, fun hinside ↦ (h.closure hinside).mono hgrows⟩

theorem Stamped.push {constants : Array Value} (h : Stamped constants) {constant : Value}
    (hconstant : ∀ label, constant.label? = some label → label = .literal constants.size) :
    Stamped (constants.push constant) := by
  intro entry other label hentry hlabel
  rw [Array.getElem?_push] at hentry
  split at hentry
  · next hlast =>
    cases hentry
    exact hlast ▸ hconstant label hlabel
  · exact h entry other label hentry hlabel

/-- The next label is given to a value. -/
theorem Labelling.Records.give {constants : Array Value} {serial : Nat}
    (h : labelling.Records constants serial) (value : Value) :
    (labelling.give (.heap serial) value).Records constants (serial + 1) := by
  refine ⟨h.literals, h.stamped, fun later hlater ↦ ?_⟩
  have hother : Label.heap later ≠ .heap serial := by
    simp only [ne_eq, Label.heap.injEq]
    omega
  exact (if_neg hother).trans (h.fresh later (by omega))

namespace Machine.Labelled

theorem advance (h : machine.Labelled labelling) (count : Nat) :
    (machine.advance count).Labelled labelling :=
  { h with frame := ⟨h.frame.free, h.frame.closure⟩ }

theorem relabelled (h : machine.Labelled labelling) : machine.Relabelled labelling :=
  ⟨labelling, .refl labelling, h⟩

/-- An integer or a string of the pool. -/
theorem constant (h : machine.Labelled labelling) {entry : Nat}
    (hentry : machine.constants[entry]? = some value)
    (hkind : value.kind = .integer ∨ value.kind = .string) : value.Labelled labelling := by
  refine ⟨fun label hlabel ↦ ?_, fun part hmem ↦ ?_, ?_⟩
  · rw [h.records.stamped entry value label hentry hlabel, h.records.literals entry, hentry]
  · cases value <;> simp_all [Value.kind, Value.parts]
  · rcases hkind with hkind | hkind <;> simp [hkind]

/-- A label that is taken, and given to a value. -/
theorem give (h : machine.Labelled labelling) (value : Value) :
    labelling.Grows (labelling.give (.heap machine.serial) value) ∧
      { machine with serial := machine.serial + 1 }.Labelled
        (labelling.give (.heap machine.serial) value) := by
  have hgrows := Labelling.grows_give (h.records.fresh machine.serial (Nat.le_refl _)) value
  exact ⟨hgrows, h.records.give value,
    fun slot held hslot ↦ (h.onStack slot held hslot).mono hgrows,
    fun slot held hslot ↦ (h.inGlobal slot held hslot).mono hgrows,
    fun held hheld ↦ (h.popped held hheld).mono hgrows, h.frame.mono hgrows,
    fun i frame hi ↦ (h.callers i frame hi).mono hgrows⟩

end Machine.Labelled

namespace Run

variable {α β : Type} {property : α → Prop} {further : β → Prop}

/-! ### Actions that take no label -/

/-- From this machine, if it is labelled, the action leads to one with the same labelling, also if
it fails; and it yields what satisfies the property. -/
def Tracks (labelling : Labelling) (action : Run α) (machine : Machine) (property : α → Prop) :
    Prop :=
  machine.Labelled labelling →
    Ends action machine (fun yielded after ↦ after.Labelled labelling ∧ property yielded)
      fun _ after ↦ after.Labelled labelling

theorem Tracks.bind {action : Run α} {next : α → Run β}
    (h : Tracks labelling action machine property)
    (hnext : ∀ yielded after, property yielded → Tracks labelling (next yielded) after further) :
    Tracks labelling (action >>= next) machine further :=
  fun hmachine ↦ Ends.bind (h hmachine) fun yielded after hdone ↦
    hnext yielded after hdone.2 hdone.1

theorem Tracks.pure {yielded : α} (h : property yielded) :
    Tracks labelling (Pure.pure yielded) machine property :=
  fun hmachine ↦ ⟨hmachine, h⟩

theorem Tracks.throw (error : RunError) :
    Tracks labelling (MonadExcept.throw error) machine property :=
  fun hmachine ↦ hmachine

theorem Tracks.check {c : Prop} [Decidable c] {error : RunError} {next : PUnit → Run α}
    (hnext : Tracks labelling (next ⟨⟩) machine property) :
    Tracks labelling (if c then (do next (← MonadExcept.throw error)) else next ⟨⟩) machine
      property :=
  fun hmachine ↦ .check (fun _ ↦ hmachine) fun _ ↦ hnext hmachine

theorem tracks_readSlot (slot : Nat) :
    Tracks labelling (readSlot slot) machine fun content ↦
      ∀ value, content = some value → value.Labelled labelling := by
  intro hmachine
  unfold Ends readSlot
  cases hslot : machine.stack[slot]? with
  | none => exact hmachine
  | some content =>
    refine ⟨hmachine, ?_⟩
    rintro value rfl
    exact hmachine.onStack slot value hslot

theorem tracks_writeSlot {slot : Nat} {content : Option Value}
    (h : ∀ value, content = some value → value.Labelled labelling) :
    Tracks labelling (writeSlot slot content) machine fun _ ↦ True := by
  intro hmachine
  unfold Ends writeSlot
  by_cases hslot : slot < machine.stack.size
  · rw [if_pos hslot]
    refine ⟨{ hmachine with onStack := fun other value hother ↦ ?_ }, trivial⟩
    rw [Array.getElem?_setIfInBounds] at hother
    split at hother
    · exact h value (Option.some.inj hother)
    · exact hmachine.onStack other value hother
  · rw [if_neg hslot]
    exact hmachine

theorem tracks_setSp (sp : Nat) : Tracks labelling (setSp sp) machine fun _ ↦ True :=
  fun hmachine ↦ ⟨{ hmachine with }, trivial⟩

theorem tracks_getSp : Tracks labelling getSp machine fun _ ↦ True :=
  fun hmachine ↦ ⟨hmachine, trivial⟩

theorem tracks_takeSlot (slot : Nat) :
    Tracks labelling (takeSlot slot) machine fun value ↦ value.Labelled labelling := by
  refine (tracks_readSlot slot).bind fun content after hcontent ↦ ?_
  cases content with
  | none => exact .throw _
  | some value =>
    exact (tracks_writeSlot (by simp)).bind fun _ _ _ ↦ .pure (hcontent value rfl)

theorem tracks_push (h : value.Labelled labelling) :
    Tracks labelling (push value) machine fun _ ↦ True := by
  refine tracks_getSp.bind fun sp after _ ↦ .check ?_
  refine (tracks_writeSlot ?_).bind fun _ _ _ ↦ tracks_setSp _
  rintro _ ⟨⟩
  exact h

theorem tracks_pop : Tracks labelling pop machine fun value ↦ value.Labelled labelling := by
  refine tracks_getSp.bind fun sp after _ ↦ ?_
  cases sp with
  | zero => exact .throw _
  | succ top =>
    exact (tracks_takeSlot top).bind fun value _ hvalue ↦
      (tracks_setSp top).bind fun _ _ _ ↦ .pure hvalue

theorem tracks_takeSlots (slot : Nat) (done : List Value) (count : Nat)
    (h : ∀ value ∈ done, value.Labelled labelling) :
    Tracks labelling (takeSlots slot done count) machine fun values ↦
      ∀ value ∈ values, value.Labelled labelling := by
  induction count generalizing slot done machine with
  | zero => exact .pure fun value hmem ↦ h value (List.mem_reverse.mp hmem)
  | succ count ih =>
    refine (tracks_takeSlot slot).bind fun value after hvalue ↦ ih (slot + 1) (value :: done) ?_
    exact List.forall_mem_cons.mpr ⟨hvalue, h⟩

theorem tracks_takeTop (count : Nat) :
    Tracks labelling (takeTop count) machine fun values ↦
      ∀ value ∈ values, value.Labelled labelling := by
  refine tracks_getSp.bind fun sp after _ ↦ .check ?_
  refine (tracks_takeSlots _ [] count (by simp)).bind fun values _ hvalues ↦ ?_
  exact (tracks_setSp _).bind fun _ _ _ ↦ .pure hvalues

theorem tracks_clearSlots (labelling : Labelling) (slot count : Nat) :
    Tracks labelling (clearSlots slot count) machine fun _ ↦ True := by
  induction count generalizing slot machine with
  | zero => exact .pure trivial
  | succ count ih => exact (tracks_writeSlot (by simp)).bind fun _ _ _ ↦ ih _

theorem tracks_setIp (ip : Nat) : Tracks labelling (setIp ip) machine fun _ ↦ True :=
  fun hmachine ↦ ⟨{ hmachine with frame := ⟨hmachine.frame.free, hmachine.frame.closure⟩ }, trivial⟩

theorem tracks_getFrame : Tracks labelling getFrame machine fun frame ↦ frame = machine.frame :=
  fun hmachine ↦ ⟨hmachine, rfl⟩

theorem tracks_constant? (entry : Nat) :
    Tracks labelling (constant? entry) machine fun found ↦ found = machine.constants[entry]? :=
  fun hmachine ↦ ⟨hmachine, rfl⟩

theorem tracks_readGlobal (index : Nat) :
    Tracks labelling (readGlobal index) machine fun content ↦
      ∀ value, content = some value → value.Labelled labelling := by
  intro hmachine
  unfold Ends readGlobal
  cases hindex : machine.globals[index]? with
  | none => exact hmachine
  | some content =>
    refine ⟨hmachine, ?_⟩
    rintro value rfl
    exact hmachine.inGlobal index value hindex

theorem tracks_writeGlobal (index : Nat) (h : value.Labelled labelling) :
    Tracks labelling (writeGlobal index value) machine fun _ ↦ True := by
  intro hmachine
  unfold Ends writeGlobal
  by_cases hindex : index < machine.globals.size
  · rw [if_pos hindex]
    refine ⟨{ hmachine with inGlobal := fun other held hother ↦ ?_ }, trivial⟩
    rw [Array.getElem?_setIfInBounds] at hother
    split at hother
    · cases hother
      exact h
    · exact hmachine.inGlobal other held hother
  · rw [if_neg hindex]
    exact hmachine

theorem tracks_setLastPopped (h : value.Labelled labelling) :
    Tracks labelling (setLastPopped value) machine fun _ ↦ True := by
  refine fun hmachine ↦ ⟨{ hmachine with popped := ?_ }, trivial⟩
  rintro _ ⟨⟩
  exact h

theorem tracks_finish (h : value.Labelled labelling) :
    Tracks labelling (finish value) machine fun _ ↦ True :=
  (tracks_setSp 0).bind fun _ _ _ ↦ tracks_setLastPopped h

theorem tracks_print (text : String) : Tracks labelling (print text) machine fun _ ↦ True :=
  fun hmachine ↦ ⟨{ hmachine with }, trivial⟩

theorem tracks_ofExcept {result : Except RunError α}
    (h : ∀ value, result = .ok value → property value) :
    Tracks labelling (ofExcept result) machine property := by
  cases result with
  | ok value => exact .pure (h value rfl)
  | error error => exact .throw error

/-! ### Operations that take no label -/

theorem tracks_comparison (op : Opcode) :
    Tracks labelling (comparison op) machine fun _ ↦ True := by
  refine tracks_pop.bind fun right _ _ ↦ tracks_pop.bind fun left popped _ ↦ ?_
  have hcompared : Tracks labelling (ofExcept (left.compare op right)) popped fun _ ↦ True :=
    tracks_ofExcept fun _ _ ↦ trivial
  exact hcompared.bind fun same _ _ ↦ tracks_push (Value.labelled_boolean same)

theorem tracks_not : Tracks labelling (do push (.boolean !(← pop).isTruthy)) machine
    fun _ ↦ True :=
  tracks_pop.bind fun _ _ _ ↦ tracks_push (Value.labelled_boolean _)

theorem tracks_negate : Tracks labelling (do push (← ofExcept (← pop).negate)) machine
    fun _ ↦ True := by
  refine tracks_pop.bind fun value _ _ ↦ ?_
  exact (tracks_ofExcept fun _ h ↦ Value.labelled_negate h).bind fun _ _ h ↦ tracks_push h

theorem tracks_index : Tracks labelling index machine fun _ ↦ True := by
  refine tracks_pop.bind fun position _ _ ↦ tracks_pop.bind fun collection _ hcollection ↦ ?_
  exact (tracks_ofExcept fun _ h ↦ hcollection.lookUp h).bind fun _ _ h ↦ tracks_push h

theorem tracks_loadConstant {entry : Nat} (h : ∃ constant,
      machine.constants[entry]? = some constant ∧
        (constant.kind = .integer ∨ constant.kind = .string)) :
    Tracks labelling (loadConstant entry) machine fun _ ↦ True := by
  obtain ⟨constant, hentry, hkind⟩ := h
  intro hmachine
  refine (tracks_constant? entry).bind (fun found after hfound ↦ ?_) hmachine
  rw [hfound, hentry]
  exact tracks_push (hmachine.constant hentry hkind)

theorem tracks_loadGlobal (index : Nat) :
    Tracks labelling (loadGlobal index) machine fun _ ↦ True := by
  refine (tracks_readGlobal index).bind fun content _ hcontent ↦ ?_
  cases content with
  | none => exact .throw _
  | some value => exact tracks_push (hcontent value rfl)

theorem tracks_storeLocal (index : Nat) :
    Tracks labelling (storeLocal index) machine fun _ ↦ True := by
  refine tracks_pop.bind fun value _ hvalue ↦ tracks_getFrame.bind fun frame _ _ ↦ .check ?_
  refine tracks_writeSlot ?_
  rintro _ ⟨⟩
  exact hvalue

theorem tracks_loadLocal (index : Nat) :
    Tracks labelling (loadLocal index) machine fun _ ↦ True := by
  refine tracks_getFrame.bind fun frame _ _ ↦ .check ?_
  refine (tracks_readSlot _).bind fun content _ hcontent ↦ ?_
  cases content with
  | none => exact .throw _
  | some value => exact tracks_push (hcontent value rfl)

theorem tracks_loadFree (index : Nat) :
    Tracks labelling (loadFree index) machine fun _ ↦ True := by
  intro hmachine
  refine tracks_getFrame.bind (fun frame after hframe ↦ ?_) hmachine
  subst hframe
  cases hindex : machine.frame.free[index]? with
  | none => exact .throw _
  | some value => exact tracks_push (hmachine.frame.free value (List.mem_of_getElem? hindex))

theorem tracks_loadBuiltin (index : Nat) :
    Tracks labelling (loadBuiltin index) machine fun _ ↦ True := by
  unfold loadBuiltin
  split
  · exact tracks_push (Value.labelled_builtin _)
  · exact .throw _

/-- A function under its own name. -/
theorem tracks_currentClosure (h : !machine.callers.isEmpty) :
    Tracks labelling (do push (← getFrame).closure) machine fun _ ↦ True := by
  intro hmachine
  refine tracks_getFrame.bind (fun frame after hframe ↦ ?_) hmachine
  subst hframe
  exact tracks_push (hmachine.frame.closure h)

/-! ### Actions that may take a label -/

/-- From this machine, if it is labelled, the action leads to one with more labels at most, also if
it fails. -/
def Labels (labelling : Labelling) (action : Run α) (machine : Machine) : Prop :=
  machine.Labelled labelling →
    Ends action machine (fun _ after ↦ after.Relabelled labelling)
      fun _ after ↦ after.Relabelled labelling

theorem Tracks.labels {action : Run α} (h : Tracks labelling action machine property) :
    Labels labelling action machine :=
  fun hmachine ↦ (h hmachine).mono (fun _ _ hdone ↦ hdone.1.relabelled)
    fun _ _ hfailed ↦ hfailed.relabelled

theorem Tracks.bind_labels {action : Run α} {next : α → Run β}
    (h : Tracks labelling action machine property)
    (hnext : ∀ yielded after, property yielded → Labels labelling (next yielded) after) :
    Labels labelling (action >>= next) machine := by
  intro hmachine
  have hfirst := (h hmachine).mono (fun _ _ hdone ↦ hdone) fun _ _ hfailed ↦ hfailed.relabelled
  exact hfirst.bind fun yielded after hdone ↦ hnext yielded after hdone.2 hdone.1

theorem Labels.throw (error : RunError) :
    Labels labelling (MonadExcept.throw error : Run α) machine :=
  fun hmachine ↦ hmachine.relabelled

theorem Labels.check {c : Prop} [Decidable c] {error : RunError} {next : PUnit → Run α}
    (hnext : Labels labelling (next ⟨⟩) machine) :
    Labels labelling (if c then (do next (← MonadExcept.throw error)) else next ⟨⟩) machine :=
  fun hmachine ↦ .check (fun _ ↦ hmachine.relabelled) fun _ ↦ hnext hmachine

theorem Labels.goOn {action : Run Unit} (h : Labels labelling action machine) :
    Labels labelling (goOn action) machine :=
  fun hmachine ↦ (h hmachine).bind fun _ _ hafter ↦ hafter

/-- The next label is for what is built of values that are labelled. -/
theorem labels_freshLabel (build : Label → Value) {next : Label → Run α}
    (hbuild : ∀ label, (build label).BuiltFrom labelling label)
    (hnext : ∀ label more after, (build label).Labelled more →
      Tracks more (next label) after fun _ ↦ True) :
    Labels labelling (freshLabel >>= next) machine := by
  intro hmachine
  obtain ⟨hgrows, hafter⟩ := hmachine.give (build (.heap machine.serial))
  have hbuilt := (hbuild _).labelled (hmachine.records.fresh machine.serial (Nat.le_refl _))
  have hrest := hnext _ _ _ hbuilt hafter
  exact Ends.of_eq_from rfl (hrest.mono (fun _ _ hdone ↦ ⟨_, hgrows, hdone.1⟩)
    fun _ _ hfailed ↦ ⟨_, hgrows, hfailed⟩)

theorem labels_arithmetic (op : Opcode) : Labels labelling (arithmetic op) machine := by
  refine tracks_pop.bind_labels fun right _ _ ↦ tracks_pop.bind_labels fun left _ _ ↦ ?_
  refine labels_freshLabel (fun label ↦ (left.operate label op right).toOption.getD .null)
    (fun label ↦ ?_)
    fun label more _ hbuilt ↦ (tracks_ofExcept fun value hvalue ↦ ?_).bind
      fun _ _ hvalue ↦ tracks_push hvalue
  · cases hvalue : left.operate label op right with
    | ok value => exact Value.builtFrom_operate hvalue
    | error error => exact .old Value.labelled_null
  · rw [hvalue] at hbuilt
    exact hbuilt

theorem labels_makeArray (count : Nat) : Labels labelling (makeArray count) machine := by
  refine (tracks_takeTop count).bind_labels fun elements _ helements ↦ ?_
  exact labels_freshLabel (.array · elements) (fun _ ↦ .new rfl helements nofun)
    fun _ _ _ hbuilt ↦ tracks_push hbuilt

theorem tracks_addAll {items : List Value} (h : ∀ item ∈ items, item.Labelled labelling) :
    Tracks labelling (ofExcept (Entries.addAll [] items)) machine fun entries ↦
      ∀ value ∈ entries.map Prod.snd, value.Labelled labelling := by
  refine tracks_ofExcept fun entries hadded value hmem ↦ ?_
  obtain ⟨⟨key, _⟩, hentry, rfl⟩ := List.mem_map.mp hmem
  rcases Value.mem_addAll hadded hentry with hnone | hitem
  · cases hnone
  · exact h _ hitem

theorem labels_makeHash (count : Nat) : Labels labelling (makeHash count) machine := by
  refine (tracks_takeTop count).bind_labels fun items _ hitems ↦ ?_
  refine (tracks_addAll hitems).bind_labels fun entries _ hentries ↦ ?_
  exact labels_freshLabel (.hash · entries) (fun _ ↦ .new rfl hentries nofun)
    fun _ _ _ hbuilt ↦ tracks_push hbuilt

theorem labels_makeClosure (entry count : Nat) :
    Labels labelling (makeClosure entry count) machine := by
  refine (tracks_constant? entry).bind_labels fun found _ _ ↦ ?_
  split
  · next routine _ =>
    refine (tracks_takeTop count).bind_labels fun free _ hfree ↦ ?_
    exact labels_freshLabel (.closure · routine free) (fun _ ↦ .new rfl hfree nofun)
      fun _ _ _ hbuilt ↦ tracks_push hbuilt
  · exact .throw _

theorem labels_callBuiltin (builtin : Builtin) (count : Nat) :
    Labels labelling (callBuiltin builtin count) machine := by
  refine (tracks_takeTop count).bind_labels fun arguments _ harguments ↦ ?_
  refine (tracks_print _).bind_labels fun _ _ _ ↦ ?_
  refine labels_freshLabel (builtin.call · arguments)
    (fun _ ↦ Value.builtFrom_call harguments) fun _ _ _ hbuilt ↦ tracks_getSp.bind fun sp _ _ ↦ ?_
  cases sp with
  | zero => exact .throw _
  | succ callee => exact (tracks_setSp callee).bind fun _ _ _ ↦ tracks_push hbuilt

/-! ### Calls and returns -/

theorem tracks_callClosure {label : Label} {routine : Routine} {free : List Value} (count : Nat)
    (h : (Value.closure label routine free).Labelled labelling) :
    Tracks labelling (callClosure label routine free count) machine fun _ ↦ True := by
  intro hmachine
  unfold Ends
  rw [callClosure_eq]
  split_ifs
  · exact hmachine
  · exact hmachine
  · exact hmachine
  · exact hmachine
  have hcleared := tracks_clearSlots labelling machine.sp
    (max routine.locals count - count) hmachine
  unfold Ends at hcleared
  cases hclear : clearSlots machine.sp (max routine.locals count - count) machine with
  | error error cleared =>
    rw [hclear] at hcleared
    exact hcleared
  | ok _ cleared =>
    rw [hclear] at hcleared
    obtain ⟨hcleared, _⟩ := hcleared
    refine ⟨{ hcleared with
      frame := ⟨fun value hmem ↦ h.part hmem, fun _ ↦ h⟩
      callers := fun i frame hi ↦ ?_ }, trivial⟩
    rw [Array.getElem?_push] at hi
    split at hi
    · next hlast =>
      cases hi
      rw [hlast, ← not_isEmpty_eq]
      exact hcleared.frame
    · exact hcleared.callers i frame hi

theorem labels_call (count : Nat) : Labels labelling (call count) machine := by
  refine tracks_getSp.bind_labels fun sp _ _ ↦ .check ?_
  refine (tracks_readSlot _).bind_labels fun content _ hcontent ↦ ?_
  split
  · exact .throw _
  · exact (tracks_callClosure count (hcontent _ rfl)).labels
  · exact labels_callBuiltin _ count
  · exact .throw _

theorem tracks_returnFromCall (h : value.Labelled labelling) :
    Tracks labelling (returnFromCall value) machine fun _ ↦ True := by
  intro hmachine
  unfold Ends
  rw [returnFromCall_eq]
  cases hback : machine.callers.back? with
  | none => exact hmachine
  | some caller =>
    obtain ⟨rest, hrest⟩ := Array.back?_eq_some_iff.mp hback
    have hpop : machine.callers.pop = rest := by rw [hrest, Array.pop_push]
    have hleft : { machine with callers := machine.callers.pop, frame := caller }.Labelled
        labelling := by
      refine { hmachine with frame := ?_, callers := fun i frame hi ↦ ?_ }
      · rw [hpop, not_isEmpty_eq]
        exact hmachine.callers rest.size caller (by rw [hrest]; exact Array.getElem?_push_size)
      · rw [hpop] at hi
        have hlt : i < rest.size := (Array.getElem?_eq_some_iff.mp hi).1
        refine hmachine.callers i frame ?_
        rw [hrest, Array.getElem?_push_lt hlt, ← Array.getElem?_eq_getElem hlt, hi]
    cases machine.frame.base with
    | zero => exact hleft
    | succ callee => exact tracks_push h { hleft with }

theorem tracks_returnWith (h : value.Labelled labelling) :
    Tracks labelling (returnWith value) machine fun _ ↦ True := by
  have htop : Tracks labelling atTopLevel machine fun _ ↦ True :=
    fun hmachine ↦ ⟨hmachine, trivial⟩
  refine htop.bind fun top _ _ ↦ ?_
  cases top with
  | true => exact (tracks_finish h).bind fun _ _ _ ↦ .pure trivial
  | false => exact (tracks_returnFromCall h).bind fun _ _ _ ↦ .pure trivial

end Run

/-! ### Steps -/

open Run

variable {constants : Array Value} {globals longest : Nat}

/-- A step gives out one label at most, to a value that has none. -/
theorem Machine.Labelled.step (h : machine.Labelled labelling)
    (hsound : machine.Sound constants globals longest) :
    Ends Run.step machine (fun _ after ↦ after.Relabelled labelling)
      fun _ after ↦ after.Relabelled labelling := by
  rcases hsound.frame.instruction with hend | ⟨instruction, hloaded, hfits, hvalid, -⟩
  · have hreturns : Ends (goOn (returnFromCall .null)) machine _ _ :=
      (tracks_returnFromCall Value.labelled_null).labels.goOn h
    unfold Ends at hreturns ⊢
    rw [step_at_end hend]
    by_cases htop : machine.callers.isEmpty
    · rw [if_pos htop]
      exact h.relabelled
    · rw [if_neg htop]
      exact hreturns
  refine .of_eq_from (step_eq_perform hloaded hfits) ?_
  have hcallers : (machine.advance instruction.length).callers = machine.callers := rfl
  have hpool : (machine.advance instruction.length).constants = constants := hsound.holds.pool
  refine (?_ : Labels labelling (perform instruction) _) (h.advance instruction.length)
  generalize machine.advance instruction.length = machine at hcallers hpool
  obtain ⟨opcode, operands⟩ := instruction
  cases opcode
  case constant =>
    obtain ⟨entry, rfl, _⟩ := hfits.eq_single rfl
    exact (tracks_loadConstant (hpool ▸ hvalid)).labels.goOn
  case closure =>
    obtain ⟨entry, count, rfl, _⟩ := hfits.eq_pair rfl
    exact (labels_makeClosure entry count).goOn
  case jump =>
    obtain ⟨target, rfl, _⟩ := hfits.eq_single rfl
    exact (tracks_setIp target).labels.goOn
  case jumpNotTruthy =>
    obtain ⟨target, rfl, _⟩ := hfits.eq_single rfl
    refine Labels.goOn (tracks_pop.bind fun value _ _ ↦ ?_ : Run.Tracks _ _ _ fun _ ↦ True).labels
    split
    · exact tracks_setIp target
    · exact .pure trivial
  case setGlobal =>
    obtain ⟨index, rfl, _⟩ := hfits.eq_single rfl
    exact (tracks_pop.bind fun _ _ hvalue ↦ tracks_writeGlobal index hvalue).labels.goOn
  case getGlobal =>
    obtain ⟨index, rfl, _⟩ := hfits.eq_single rfl
    exact (tracks_loadGlobal index).labels.goOn
  case setLocal =>
    obtain ⟨index, rfl, _⟩ := hfits.eq_single rfl
    exact (tracks_storeLocal index).labels.goOn
  case getLocal =>
    obtain ⟨index, rfl, _⟩ := hfits.eq_single rfl
    exact (tracks_loadLocal index).labels.goOn
  case getFree =>
    obtain ⟨index, rfl, _⟩ := hfits.eq_single rfl
    exact (tracks_loadFree index).labels.goOn
  case getBuiltin =>
    obtain ⟨index, rfl, _⟩ := hfits.eq_single rfl
    exact (tracks_loadBuiltin index).labels.goOn
  case array =>
    obtain ⟨count, rfl, _⟩ := hfits.eq_single rfl
    exact (labels_makeArray count).goOn
  case hash =>
    obtain ⟨count, rfl, _⟩ := hfits.eq_single rfl
    exact (labels_makeHash count).goOn
  case call =>
    obtain ⟨count, rfl, _⟩ := hfits.eq_single rfl
    exact (labels_call count).goOn
  all_goals
    obtain rfl := hfits.eq_nil rfl
  case add | sub | mul | div => exact (labels_arithmetic _).goOn
  case equal | notEqual | greaterThan => exact (tracks_comparison _).labels.goOn
  case bang => exact tracks_not.labels.goOn
  case minus => exact tracks_negate.labels.goOn
  case true | false => exact (tracks_push (Value.labelled_boolean _)).labels.goOn
  case null => exact (tracks_push Value.labelled_null).labels.goOn
  case pop => exact (tracks_pop.bind fun _ _ hvalue ↦ tracks_setLastPopped hvalue).labels.goOn
  case index => exact tracks_index.labels.goOn
  case currentClosure => exact (tracks_currentClosure (hcallers ▸ hvalid)).labels.goOn
  case returnValue => exact (tracks_pop.bind fun _ _ hvalue ↦ tracks_returnWith hvalue).labels
  case ret => exact (tracks_returnWith Value.labelled_null).labels

end StackScript
