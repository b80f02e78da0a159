import StackScript.Proofs.Machine.Control

/-!
Machines that run any bytes as code, with any constants and globals. Whatever the code does to the
stack, the pointer to its top stays within it, there are never more callers than the limit allows,
and each function but the outermost has a callee slot below its base (`Machine.InBounds`). This
holds before and after each step, whether the step lets the program go on, ends it or fails, so a
machine may be run again after an error. No step reaches beyond the stack or the globals then, and
no operation on integers is without a meaning (`Machine.Visits.keeps_bounds`).
-/

set_option autoImplicit false
set_option relaxedAutoImplicit false

namespace StackScript

/-- The error is none of a slot that there is not, or of an operation that integers do not have. -/
def RunError.IsReported (error : RunError) : Prop :=
  error ≠ .outOfRange ∧ ∀ op, error ≠ .unknownIntegerOperator op

theorem RunError.IsReported.of_isOfValues {error : RunError} (h : error.isOfValues) :
    error.IsReported := by
  constructor
  · rintro rfl
    cases h
  · rintro op rfl
    cases h

namespace Machine

/-- Where the locals of the functions at work begin, the outermost function first. -/
def bases (machine : Machine) : Array Nat :=
  (machine.callers.map Frame.base).push machine.frame.base

structure InBounds (machine : Machine) : Prop where
  stack : machine.stack.size = stackSize
  sp : machine.sp ≤ stackSize
  globals : machine.globals.size = globalsSize
  depth : machine.callers.size < frameLimit
  bases (i : Nat) (base : Nat) : machine.bases[i]? = some base → 0 < i →
    1 ≤ base ∧ base ≤ stackSize

theorem inBounds_new (bytecode : Bytecode) (globals : Array (Option Value)) (serial : Nat) :
    (new bytecode globals serial).InBounds := by
  refine ⟨Array.size_replicate, Nat.zero_le _, size_resize _ _, Nat.zero_lt_succ _, ?_⟩
  intro i base hbase hi
  have hlt := (Array.getElem?_eq_some_iff.mp hbase).1
  simp only [bases, new, Array.map_empty, Array.size_push, Array.size_empty] at hlt
  omega

theorem InBounds.setSp {machine : Machine} (h : machine.InBounds) {sp : Nat} (hsp : sp ≤ stackSize) :
    InBounds { machine with sp := sp } :=
  ⟨h.stack, hsp, h.globals, h.depth, h.bases⟩

/-- A caller has a callee slot too, unless it is the outermost function. -/
theorem InBounds.callers {machine : Machine} (h : machine.InBounds) {i base : Nat}
    (hbase : (machine.callers.map Frame.base)[i]? = some base) (hi : 0 < i) :
    1 ≤ base ∧ base ≤ stackSize := by
  refine h.bases i base ?_ hi
  have hlt := (Array.getElem?_eq_some_iff.mp hbase).1
  rwa [Machine.bases, Array.getElem?_push_lt hlt, ← Array.getElem?_eq_getElem hlt]

/-- A function that was called has a callee slot. -/
theorem InBounds.base {machine : Machine} (h : machine.InBounds) (hcallers : 0 < machine.callers.size) :
    1 ≤ machine.frame.base ∧ machine.frame.base ≤ stackSize := by
  refine h.bases machine.callers.size _ ?_ hcallers
  have hsize : machine.callers.size = (machine.callers.map Frame.base).size := by simp
  rw [Machine.bases, hsize, Array.getElem?_push_size]

end Machine

namespace Run

variable {machine : Machine} {α β : Type} {property : α → Machine → Prop}
  {further : β → Machine → Prop}

/-- From this machine, if it is in bounds, the action leads to a machine in bounds and to what
satisfies the property, or it fails in bounds with an error that is reported. -/
def Bounded (action : Run α) (machine : Machine) (property : α → Machine → Prop) : Prop :=
  machine.InBounds → Ends action machine
    (fun yielded after ↦ after.InBounds ∧ property yielded after)
    fun error after ↦ after.InBounds ∧ error.IsReported

theorem Bounded.bind {action : Run α} {next : α → Run β} (h : Bounded action machine property)
    (hnext : ∀ yielded after, property yielded after → Bounded (next yielded) after further) :
    Bounded (action >>= next) machine further :=
  fun hbounds ↦ (h hbounds).bind fun yielded after hafter ↦
    hnext yielded after hafter.2 hafter.1

theorem Bounded.pure {yielded : α} (h : property yielded machine) :
    Bounded (Pure.pure yielded) machine property :=
  fun hbounds ↦ .pure ⟨hbounds, h⟩

theorem Bounded.throw {error : RunError} (h : error.IsReported) :
    Bounded (MonadExcept.throw error) machine property :=
  fun hbounds ↦ .throw ⟨hbounds, h⟩

theorem Bounded.mono {action : Run α} {weaker : α → Machine → Prop}
    (h : Bounded action machine property)
    (hweaker : ∀ yielded after, property yielded after → weaker yielded after) :
    Bounded action machine weaker :=
  fun hbounds ↦ (h hbounds).mono
    (fun yielded after hafter ↦ ⟨hafter.1, hweaker yielded after hafter.2⟩) fun _ _ hfailed ↦ hfailed

theorem Bounded.check {c : Prop} [Decidable c] {error : RunError} {next : PUnit → Run α}
    (herror : error.IsReported) (hnext : ¬c → Bounded (next ⟨⟩) machine property) :
    Bounded (if c then (do next (← MonadExcept.throw error)) else next ⟨⟩) machine property :=
  fun hbounds ↦ .check (fun _ ↦ ⟨hbounds, herror⟩) fun hcheck ↦ hnext hcheck hbounds

/-! ### Slots -/

theorem bounded_readSlot {slot : Nat} (hslot : slot < stackSize) :
    Bounded (readSlot slot) machine fun _ after ↦ after = machine := by
  intro hbounds
  unfold Ends readSlot
  rw [Array.getElem?_eq_getElem (hbounds.stack ▸ hslot)]
  exact ⟨hbounds, rfl⟩

theorem bounded_writeSlot {slot : Nat} (hslot : slot < stackSize) (content : Option Value) :
    Bounded (writeSlot slot content) machine fun _ after ↦
      ∃ stack, after = { machine with stack := stack } := by
  intro hbounds
  unfold Ends writeSlot
  rw [if_pos (hbounds.stack ▸ hslot)]
  exact ⟨⟨Array.size_setIfInBounds.trans hbounds.stack, hbounds.sp, hbounds.globals, hbounds.depth,
    hbounds.bases⟩, _, rfl⟩

theorem bounded_setSp {sp : Nat} (hsp : sp ≤ stackSize) :
    Bounded (setSp sp) machine fun _ after ↦ after.sp = sp :=
  fun hbounds ↦ ⟨hbounds.setSp hsp, rfl⟩

theorem bounded_getSp :
    Bounded getSp machine fun sp after ↦ sp ≤ stackSize ∧ sp = machine.sp ∧ after = machine :=
  fun hbounds ↦ ⟨hbounds, hbounds.sp, rfl, rfl⟩

theorem bounded_takeSlot {slot : Nat} (hslot : slot < stackSize) :
    Bounded (takeSlot slot) machine fun _ after ↦
      ∃ stack, after = { machine with stack := stack } := by
  refine (bounded_readSlot hslot).bind ?_
  rintro (_ | value) after rfl
  · exact .throw ⟨by simp, by simp⟩
  · exact (bounded_writeSlot hslot none).bind fun _ _ hafter ↦ .pure hafter

theorem bounded_push (value : Value) : Bounded (push value) machine fun _ _ ↦ True := by
  refine bounded_getSp.bind fun sp after _ ↦ .check ⟨by simp, by simp⟩ fun hfull ↦ ?_
  refine (bounded_writeSlot (Nat.lt_of_not_le hfull) _).bind fun _ _ _ ↦ ?_
  exact (bounded_setSp (Nat.lt_of_not_le hfull)).mono fun _ _ _ ↦ trivial

theorem bounded_pop : Bounded pop machine fun _ _ ↦ True := by
  refine bounded_getSp.bind ?_
  rintro (_ | top) after ⟨hsp, _, _⟩
  · exact .throw ⟨by simp, by simp⟩
  · refine (bounded_takeSlot hsp).bind fun value _ _ ↦ ?_
    exact (bounded_setSp (Nat.le_of_succ_le hsp)).bind fun _ _ _ ↦ .pure trivial

theorem bounded_takeSlots (slot : Nat) (done : List Value) (count : Nat)
    (hroom : slot + count ≤ stackSize) :
    Bounded (takeSlots slot done count) machine fun _ _ ↦ True := by
  induction count generalizing slot done machine with
  | zero => exact .pure trivial
  | succ count ih =>
    exact (bounded_takeSlot (by omega)).bind fun value _ _ ↦ ih (slot + 1) (value :: done) (by omega)

theorem bounded_takeTop (count : Nat) :
    Bounded (takeTop count) machine fun _ after ↦ after.sp = machine.sp - count := by
  refine bounded_getSp.bind ?_
  rintro sp after ⟨hsp, rfl, rfl⟩
  refine .check ⟨by simp, by simp⟩ fun hcount ↦ ?_
  refine (bounded_takeSlots _ _ _ (by omega)).bind fun values _ _ ↦ ?_
  exact (bounded_setSp (by omega)).bind fun _ _ hlast ↦ .pure hlast

theorem bounded_clearSlots (slot count : Nat) (hroom : slot + count ≤ stackSize) :
    Bounded (clearSlots slot count) machine fun _ after ↦
      ∃ stack, after = { machine with stack := stack } := by
  induction count generalizing slot machine with
  | zero => exact .pure ⟨machine.stack, rfl⟩
  | succ count ih =>
    refine (bounded_writeSlot (by omega) none).bind ?_
    rintro _ _ ⟨stack, rfl⟩
    exact ih (slot + 1) (by omega)

/-! ### Code -/

theorem bounded_setIp (ip : Nat) : Bounded (setIp ip) machine fun _ _ ↦ True :=
  fun hbounds ↦ ⟨⟨hbounds.stack, hbounds.sp, hbounds.globals, hbounds.depth, hbounds.bases⟩, trivial⟩

theorem bounded_fetch : Bounded fetch machine fun _ _ ↦ True := by
  intro hbounds
  unfold Ends fetch
  cases machine.frame.routine.code[machine.frame.ip]? with
  | none => exact ⟨hbounds, trivial⟩
  | some byte =>
    have hnext := bounded_setIp (machine.frame.ip + 1) hbounds
    dsimp only
    cases Opcode.ofByte? byte with
    | none => exact ⟨hnext.1, by simp, by simp⟩
    | some opcode => exact hnext

theorem bounded_operandByte : Bounded operandByte machine fun _ _ ↦ True := by
  intro hbounds
  unfold Ends operandByte
  dsimp only
  cases machine.frame.routine.code[machine.frame.ip]? with
  | none => exact ⟨hbounds, by simp, by simp⟩
  | some byte => exact bounded_setIp (machine.frame.ip + 1) hbounds

/-- Each operand of two bytes is the index of a global. -/
theorem bounded_operandWord : Bounded operandWord machine fun operand _ ↦ operand < globalsSize := by
  intro hbounds
  unfold Ends operandWord
  dsimp only
  cases machine.frame.routine.code[machine.frame.ip]? with
  | none => exact ⟨hbounds, by simp, by simp⟩
  | some high =>
    cases machine.frame.routine.code[machine.frame.ip + 1]? with
    | none => exact ⟨hbounds, by simp, by simp⟩
    | some low =>
      have hhigh := high.toNat_lt
      have hlow := low.toNat_lt
      refine ⟨(bounded_setIp (machine.frame.ip + 2) hbounds).1, ?_⟩
      simp only [globalsSize]
      omega

/-! ### The rest of the state -/

theorem bounded_getFrame : Bounded getFrame machine fun _ _ ↦ True :=
  fun hbounds ↦ ⟨hbounds, trivial⟩

theorem bounded_constant? (entry : Nat) : Bounded (constant? entry) machine fun _ _ ↦ True :=
  fun hbounds ↦ ⟨hbounds, trivial⟩

theorem bounded_readGlobal {index : Nat} (hindex : index < globalsSize) :
    Bounded (readGlobal index) machine fun _ _ ↦ True := by
  intro hbounds
  unfold Ends readGlobal
  rw [Array.getElem?_eq_getElem (hbounds.globals ▸ hindex)]
  exact ⟨hbounds, trivial⟩

theorem bounded_writeGlobal {index : Nat} (hindex : index < globalsSize) (value : Value) :
    Bounded (writeGlobal index value) machine fun _ _ ↦ True := by
  intro hbounds
  unfold Ends writeGlobal
  rw [if_pos (hbounds.globals ▸ hindex)]
  exact ⟨⟨hbounds.stack, hbounds.sp, Array.size_setIfInBounds.trans hbounds.globals, hbounds.depth,
    hbounds.bases⟩, trivial⟩

theorem bounded_setLastPopped (value : Value) :
    Bounded (setLastPopped value) machine fun _ _ ↦ True :=
  fun hbounds ↦ ⟨⟨hbounds.stack, hbounds.sp, hbounds.globals, hbounds.depth, hbounds.bases⟩, trivial⟩

theorem bounded_freshLabel :
    Bounded freshLabel machine fun _ after ↦ after.sp = machine.sp :=
  fun hbounds ↦ ⟨⟨hbounds.stack, hbounds.sp, hbounds.globals, hbounds.depth, hbounds.bases⟩, rfl⟩

theorem bounded_print (text : String) :
    Bounded (print text) machine fun _ after ↦ after.sp = machine.sp :=
  fun hbounds ↦ ⟨⟨hbounds.stack, hbounds.sp, hbounds.globals, hbounds.depth, hbounds.bases⟩, rfl⟩

theorem bounded_ofExcept {result : Except RunError α}
    (h : ∀ error, result = .error error → error.IsReported) :
    Bounded (ofExcept result) machine fun _ _ ↦ True := by
  cases result with
  | ok value => exact .pure trivial
  | error error => exact .throw (h error rfl)

/-! ### Operations -/

theorem bounded_arithmetic {op : Opcode} (hop : op ∈ [.add, .sub, .mul, .div]) :
    Bounded (arithmetic op) machine fun _ _ ↦ True := by
  refine bounded_pop.bind fun right _ _ ↦ bounded_pop.bind fun left _ _ ↦ ?_
  refine bounded_freshLabel.bind fun label _ _ ↦ ?_
  refine (bounded_ofExcept fun error h ↦ .of_isOfValues (isOfValues_of_operate hop h)).bind ?_
  intro value _ _
  exact bounded_push value

theorem bounded_comparison {op : Opcode} (hop : op ∈ [.equal, .notEqual, .greaterThan]) :
    Bounded (comparison op) machine fun _ _ ↦ True := by
  refine bounded_pop.bind fun right _ _ ↦ bounded_pop.bind fun left _ _ ↦ ?_
  refine (bounded_ofExcept fun error h ↦ .of_isOfValues (isOfValues_of_compare hop h)).bind ?_
  intro value _ _
  exact bounded_push (.boolean value)

theorem bounded_negate :
    Bounded (do push (← ofExcept (← pop).negate)) machine fun _ _ ↦ True := by
  refine bounded_pop.bind fun value _ _ ↦ ?_
  exact (bounded_ofExcept fun error h ↦ .of_isOfValues (isOfValues_of_negate h)).bind fun result _ _ ↦
    bounded_push result

theorem bounded_index : Bounded index machine fun _ _ ↦ True := by
  refine bounded_pop.bind fun position _ _ ↦ bounded_pop.bind fun collection _ _ ↦ ?_
  exact (bounded_ofExcept fun error h ↦ .of_isOfValues (isOfValues_of_lookUp h)).bind fun value _ _ ↦
    bounded_push value

theorem bounded_loadConstant (entry : Nat) :
    Bounded (loadConstant entry) machine fun _ _ ↦ True := by
  refine (bounded_constant? entry).bind ?_
  rintro (_ | value) _ _
  · exact .throw ⟨by simp, by simp⟩
  · exact bounded_push value

theorem bounded_loadGlobal {index : Nat} (hindex : index < globalsSize) :
    Bounded (loadGlobal index) machine fun _ _ ↦ True := by
  refine (bounded_readGlobal hindex).bind ?_
  rintro (_ | value) _ _
  · exact .throw ⟨by simp, by simp⟩
  · exact bounded_push value

theorem bounded_storeLocal (index : Nat) : Bounded (storeLocal index) machine fun _ _ ↦ True := by
  refine bounded_pop.bind fun value _ _ ↦ bounded_getFrame.bind fun frame _ _ ↦ ?_
  refine .check ⟨by simp, by simp⟩ fun hslot ↦ ?_
  exact (bounded_writeSlot (Nat.lt_of_not_le hslot) _).mono fun _ _ _ ↦ trivial

theorem bounded_loadLocal (index : Nat) : Bounded (loadLocal index) machine fun _ _ ↦ True := by
  refine bounded_getFrame.bind fun frame _ _ ↦ .check ⟨by simp, by simp⟩ fun hslot ↦ ?_
  refine (bounded_readSlot (Nat.lt_of_not_le hslot)).bind ?_
  rintro (_ | value) _ _
  · exact .throw ⟨by simp, by simp⟩
  · exact bounded_push value

theorem bounded_loadFree (index : Nat) : Bounded (loadFree index) machine fun _ _ ↦ True := by
  refine bounded_getFrame.bind fun frame _ _ ↦ ?_
  cases frame.free[index]? with
  | none => exact .throw ⟨by simp, by simp⟩
  | some value => exact bounded_push value

theorem bounded_loadBuiltin (index : Nat) :
    Bounded (loadBuiltin index) machine fun _ _ ↦ True := by
  unfold loadBuiltin
  cases Builtin.ofIndex? index with
  | none => exact .throw ⟨by simp, by simp⟩
  | some builtin => exact bounded_push (.builtin builtin)

theorem bounded_makeArray (count : Nat) : Bounded (makeArray count) machine fun _ _ ↦ True := by
  refine (bounded_takeTop count).bind fun elements _ _ ↦ ?_
  exact bounded_freshLabel.bind fun label _ _ ↦ bounded_push (.array label elements)

theorem bounded_makeHash (count : Nat) : Bounded (makeHash count) machine fun _ _ ↦ True := by
  refine (bounded_takeTop count).bind fun items _ _ ↦ ?_
  refine (bounded_ofExcept fun error h ↦ .of_isOfValues (isOfValues_of_addAll h)).bind ?_
  intro entries _ _
  exact bounded_freshLabel.bind fun label _ _ ↦ bounded_push (.hash label entries)

theorem bounded_makeClosure (entry count : Nat) :
    Bounded (makeClosure entry count) machine fun _ _ ↦ True := by
  refine (bounded_constant? entry).bind fun found _ _ ↦ ?_
  split
  · refine (bounded_takeTop count).bind fun free _ _ ↦ ?_
    exact bounded_freshLabel.bind fun label _ _ ↦ bounded_push _
  · exact .throw ⟨by simp, by simp⟩

/-! ### Calls -/

/-- The callee is below the arguments, so the base of its frame is not the lowest slot. -/
theorem bounded_callClosure (label : Label) (routine : Routine) (free : List Value) {count : Nat}
    (hcount : count < machine.sp) :
    Bounded (callClosure label routine free count) machine fun _ _ ↦ True := by
  intro hbounds
  unfold Ends
  rw [callClosure_eq]
  by_cases harity : count ≠ routine.parameters
  · rw [if_pos harity]
    exact ⟨hbounds, by simp, by simp⟩
  rw [if_neg harity]
  by_cases hdepth : frameLimit ≤ machine.callers.size + 1
  · rw [if_pos hdepth]
    exact ⟨hbounds, by simp, by simp⟩
  rw [if_neg hdepth, if_neg (Nat.not_lt_of_lt hcount)]
  by_cases hfull : stackSize < machine.sp - count + max routine.locals count
  · rw [if_pos hfull]
    exact ⟨hbounds, by simp, by simp⟩
  rw [if_neg hfull]
  have hclear := bounded_clearSlots machine.sp (max routine.locals count - count) (by omega) hbounds
  unfold Ends at hclear
  cases hcleared : clearSlots machine.sp (max routine.locals count - count) machine with
  | error error after =>
    rw [hcleared] at hclear
    exact hclear
  | ok _ after =>
    rw [hcleared] at hclear
    obtain ⟨hafter, stack, rfl⟩ := hclear
    refine ⟨⟨hafter.stack, Nat.le_of_not_lt hfull, hafter.globals, ?_, ?_⟩, trivial⟩
    · rw [Array.size_push]
      exact Nat.lt_of_not_le hdepth
    · intro i base hbase hi
      simp only [Machine.bases, Array.map_push, Array.getElem?_push] at hbase
      split at hbase
      · cases hbase
        omega
      · exact hbounds.bases i base (by simpa only [Machine.bases, Array.getElem?_push] using hbase) hi

theorem bounded_callBuiltin (builtin : Builtin) {count : Nat} (hcount : count < machine.sp) :
    Bounded (callBuiltin builtin count) machine fun _ _ ↦ True := by
  refine (bounded_takeTop count).bind fun arguments taken htaken ↦ ?_
  refine (bounded_print _).bind fun _ printed hprinted ↦ ?_
  refine bounded_freshLabel.bind fun label fresh hfresh ↦ bounded_getSp.bind ?_
  rintro (_ | callee) after ⟨hsp, hsame, rfl⟩
  · omega
  · exact (bounded_setSp (by omega)).bind fun _ _ _ ↦ bounded_push _

theorem bounded_call (count : Nat) : Bounded (call count) machine fun _ _ ↦ True := by
  refine bounded_getSp.bind ?_
  rintro sp after ⟨hsp, rfl, rfl⟩
  refine .check ⟨by simp, by simp⟩ fun hcount ↦ ?_
  refine (bounded_readSlot (by omega)).bind ?_
  rintro content after rfl
  split
  · exact .throw ⟨by simp, by simp⟩
  · exact bounded_callClosure _ _ _ (by omega)
  · exact bounded_callBuiltin _ (by omega)
  · exact .throw ⟨by simp, by simp⟩

theorem bounded_returnFromCall (value : Value) :
    Bounded (returnFromCall value) machine fun _ _ ↦ True := by
  intro hbounds
  unfold Ends
  rw [returnFromCall_eq]
  cases hback : machine.callers.back? with
  | none => exact ⟨hbounds, by simp, by simp⟩
  | some caller =>
    obtain ⟨rest, hrest⟩ := Array.back?_eq_some_iff.mp hback
    have hbase := hbounds.base (by rw [hrest, Array.size_push]; omega)
    cases hcallee : machine.frame.base with
    | zero => omega
    | succ callee =>
      refine bounded_push value ⟨hbounds.stack, by dsimp only; omega, hbounds.globals, ?_, ?_⟩
      · have hdepth := hbounds.depth
        rw [Array.size_pop]
        omega
      · intro i base hsome hi
        refine hbounds.callers ?_ hi
        simpa [Machine.bases, hrest] using hsome

theorem bounded_returnWith (value : Value) :
    Bounded (returnWith value) machine fun _ _ ↦ True := by
  have htop : Bounded atTopLevel machine fun _ _ ↦ True := fun hbounds ↦ ⟨hbounds, trivial⟩
  refine htop.bind ?_
  rintro (_ | _) _ _
  · exact (bounded_returnFromCall value).bind fun _ _ _ ↦ .pure trivial
  · refine ((bounded_setSp (Nat.zero_le _)).bind fun _ _ _ ↦ bounded_setLastPopped value).bind ?_
    exact fun _ _ _ ↦ .pure trivial

/-! ### Steps -/

theorem Bounded.goOn {action : Run Unit} (h : Bounded action machine fun _ _ ↦ True) :
    Bounded (goOn action) machine fun _ _ ↦ True :=
  h.bind fun _ _ _ ↦ .pure trivial

theorem bounded_execute (opcode : Opcode) : Bounded (execute opcode) machine fun _ _ ↦ True := by
  cases opcode
  case constant => exact (bounded_operandWord.bind fun entry _ _ ↦ bounded_loadConstant entry).goOn
  case add | sub | mul | div => exact (bounded_arithmetic (by simp)).goOn
  case equal | notEqual | greaterThan => exact (bounded_comparison (by simp)).goOn
  case bang => exact (bounded_pop.bind fun value _ _ ↦ bounded_push _).goOn
  case minus => exact bounded_negate.goOn
  case true | false => exact (bounded_push (.boolean _)).goOn
  case null => exact (bounded_push .null).goOn
  case pop => exact (bounded_pop.bind fun value _ _ ↦ bounded_setLastPopped value).goOn
  case jump => exact (bounded_operandWord.bind fun target _ _ ↦ bounded_setIp target).goOn
  case jumpNotTruthy =>
    refine (bounded_operandWord.bind fun target _ _ ↦ bounded_pop.bind fun value _ _ ↦ ?_).goOn
    cases value.isTruthy with
    | true => exact .pure trivial
    | false => exact bounded_setIp target
  case setGlobal =>
    exact (bounded_operandWord.bind fun index _ hindex ↦ bounded_pop.bind fun value _ _ ↦
      bounded_writeGlobal hindex value).goOn
  case getGlobal =>
    exact (bounded_operandWord.bind fun index _ hindex ↦ bounded_loadGlobal hindex).goOn
  case setLocal => exact (bounded_operandByte.bind fun index _ _ ↦ bounded_storeLocal index).goOn
  case getLocal => exact (bounded_operandByte.bind fun index _ _ ↦ bounded_loadLocal index).goOn
  case getFree => exact (bounded_operandByte.bind fun index _ _ ↦ bounded_loadFree index).goOn
  case getBuiltin =>
    exact (bounded_operandByte.bind fun index _ _ ↦ bounded_loadBuiltin index).goOn
  case currentClosure => exact (bounded_getFrame.bind fun frame _ _ ↦ bounded_push _).goOn
  case array => exact (bounded_operandWord.bind fun count _ _ ↦ bounded_makeArray count).goOn
  case hash => exact (bounded_operandWord.bind fun count _ _ ↦ bounded_makeHash count).goOn
  case index => exact bounded_index.goOn
  case call => exact (bounded_operandByte.bind fun count _ _ ↦ bounded_call count).goOn
  case closure =>
    exact (bounded_operandWord.bind fun entry _ _ ↦ bounded_operandByte.bind fun count _ _ ↦
      bounded_makeClosure entry count).goOn
  case returnValue => exact bounded_pop.bind fun value _ _ ↦ bounded_returnWith value
  case ret => exact bounded_returnWith .null

theorem bounded_step : Bounded step machine fun _ _ ↦ True := by
  refine bounded_fetch.bind ?_
  rintro (_ | opcode) _ _
  · have htop {after : Machine} : Bounded atTopLevel after fun _ _ ↦ True :=
      fun hbounds ↦ ⟨hbounds, trivial⟩
    refine htop.bind ?_
    rintro (_ | _) _ _
    · exact (bounded_returnFromCall .null).goOn
    · exact .pure trivial
  · exact bounded_execute opcode

/-- The machine as the action leaves it, also by an error. -/
def leave (action : Run α) (machine : Machine) : Machine :=
  match action machine with
  | .ok _ after | .error _ after => after

end Run

namespace Machine

open Run

/-- The machines that are met from the first one on when its code is run as often as one likes. A
run that ended or failed is taken up again where it stopped. -/
inductive Visits (start : Machine) : Machine → Prop
  | here : Visits start start
  | next {machine : Machine} (h : Visits start machine) : Visits start (step.leave machine)

variable {start machine : Machine}

theorem Visits.inBounds (h : start.Visits machine) (hstart : start.InBounds) : machine.InBounds := by
  induction h with
  | here => exact hstart
  | next _ ih =>
    have hstep := bounded_step ih
    unfold Ends at hstep
    unfold leave
    split
    · next heq => exact (heq ▸ hstep).1
    · next heq => exact (heq ▸ hstep).1

/-- A step is in bounds, and met are what it leads to and what it leaves when it fails. -/
theorem Visits.ends_step (h : start.Visits machine) (hstart : start.InBounds) :
    Ends step machine (fun _ ↦ start.Visits) fun error after ↦
      start.Visits after ∧ error.IsReported := by
  have hnext := h.next
  have hstep := bounded_step (h.inBounds hstart)
  unfold Ends at hstep ⊢
  unfold leave at hnext
  cases hresult : step machine with
  | ok _ after =>
    rw [hresult] at hnext
    exact hnext
  | error _ after =>
    rw [hresult] at hnext hstep
    exact ⟨hnext, hstep.2⟩

theorem Visits.ends_steps (h : start.Visits machine) (hstart : start.InBounds) (count : Nat) :
    Ends (steps count) machine (fun _ ↦ start.Visits) fun error after ↦
      start.Visits after ∧ error.IsReported := by
  induction count generalizing machine with
  | zero => exact .throw ⟨h, by simp, by simp⟩
  | succ count ih =>
    refine (h.ends_step hstart).bind ?_
    rintro (_ | _) after hafter
    · exact ih hafter
    · exact .pure hafter

theorem Visits.ends_rounds (h : start.Visits machine) (hstart : start.InBounds) (count : Nat) :
    Ends (rounds count) machine (fun _ ↦ start.Visits) fun error after ↦
      start.Visits after ∧ error.IsReported := by
  induction count generalizing machine with
  | zero => exact .throw ⟨h, by simp, by simp⟩
  | succ count ih =>
    have hround := h.ends_steps hstart roundLength
    unfold Ends at hround ⊢
    unfold rounds
    cases hsteps : steps roundLength machine with
    | ok _ after =>
      rw [hsteps] at hround
      exact hround
    | error error after =>
      rw [hsteps] at hround
      cases error
      case stepLimit => exact ih hround.1
      all_goals exact hround

/-- Spec §4.4 and §7, failures are reported. Assumes: the machine is one that the code visits, from
a new machine on, in any number of steps, also behind steps that failed and in further runs (`h`).
Whatever the code, the constants and the globals are, it is in bounds before and after each step,
and neither a step nor a whole run fails for a slot that there is not or an operation that integers
do not have. -/
theorem Visits.keeps_bounds {bytecode : Bytecode} {globals : Array (Option Value)} {serial : Nat}
    (h : (new bytecode globals serial).Visits machine) :
    machine.InBounds ∧
      (∀ error after, step machine = .error error after → error.IsReported) ∧
      (new bytecode globals serial).Visits (run.leave machine) ∧
      ∀ error after, run machine = .error error after → error.IsReported := by
  have hstart := inBounds_new bytecode globals serial
  obtain ⟨count, hcount⟩ : ∃ count, run machine = rounds count machine := ⟨_, rfl⟩
  have hstep := h.ends_step hstart
  have hrun := h.ends_rounds hstart count
  unfold Ends at hstep hrun
  refine ⟨h.inBounds hstart, fun error after heq ↦ ?_, ?_, fun error after heq ↦ ?_⟩
  · rw [heq] at hstep
    exact hstep.2
  · unfold leave
    rw [hcount]
    cases hresult : rounds count machine with
    | ok _ after =>
      rw [hresult] at hrun
      exact hrun
    | error error after =>
      rw [hresult] at hrun
      exact hrun.1
  · rw [← hcount, heq] at hrun
    exact hrun.2

/-- Code that discards a value when there is none, and goes on with a byte of no operation. -/
theorem Visits.keeps_bounds_stray :
    let start := new ⟨#[2, 255], #[]⟩ #[] 0
    start.Visits (step.leave (step.leave start)) ∧ (step.leave (step.leave start)).InBounds :=
  ⟨.next (.next .here), (Visits.keeps_bounds (.next (.next .here))).1⟩

end Machine

end StackScript
