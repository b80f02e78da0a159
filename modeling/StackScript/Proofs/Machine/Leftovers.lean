import StackScript.Proofs.Machine.Excerpt
import StackScript.Proofs.Machine.Turns

/-!
What calls leave behind on the stack. A machine and one that differs from it only above all operands
and all locals of functions at work run alike, step by step: they end with the same or fail with the
same error, and at no time differ in anything but what is left over (`Machine.Twins.halts`). A slot
that comes into use again is written before it is read.
-/

set_option autoImplicit false
set_option relaxedAutoImplicit false

namespace StackScript

/-! ### Slots in use -/

/-- The slot above the locals of the function. -/
def Frame.ceiling (frame : Frame) : Nat :=
  frame.base + frame.routine.locals

namespace Machine

/-- The first slot above all operands and all locals of functions at work. -/
def waterline (machine : Machine) : Nat :=
  machine.frames.foldl (fun mark frame ↦ max mark frame.ceiling) machine.sp

/-- All operands and all locals of functions at work are below the mark. -/
structure Within (machine : Machine) (mark : Nat) : Prop where
  sp : machine.sp ≤ mark
  frame : machine.frame.ceiling ≤ mark
  callers (caller : Frame) : caller ∈ machine.callers → caller.ceiling ≤ mark

theorem foldl_ceiling_le {frames : List Frame} {start mark : Nat} :
    frames.foldl (fun mark frame ↦ max mark frame.ceiling) start ≤ mark ↔
      start ≤ mark ∧ ∀ frame ∈ frames, frame.ceiling ≤ mark := by
  induction frames generalizing start with
  | nil => simp
  | cons frame frames ih =>
    rw [List.foldl_cons, ih, Nat.max_le, List.forall_mem_cons, and_assoc]

theorem waterline_le_iff {machine : Machine} {mark : Nat} :
    machine.waterline ≤ mark ↔ machine.Within mark := by
  unfold waterline
  rw [← Array.foldl_toList, foldl_ceiling_le]
  constructor
  · rintro ⟨hsp, hframes⟩
    have hall : ∀ frame ∈ machine.frames, frame.ceiling ≤ mark :=
      fun frame hmem ↦ hframes frame (Array.mem_toList_iff.mpr hmem)
    exact ⟨hsp, hall _ Array.mem_push_self, fun caller hmem ↦ hall _ (Array.mem_push_of_mem _ hmem)⟩
  · rintro ⟨hsp, hframe, hcallers⟩
    refine ⟨hsp, fun frame hmem ↦ ?_⟩
    rcases Array.mem_push.mp (Array.mem_toList_iff.mp hmem) with hcaller | rfl
    · exact hcallers frame hcaller
    · exact hframe

/-! ### Machines side by side -/

/-- The other machine differs at most in what its stack holds from the mark on, above everything in
use. -/
inductive Twin (mark : Nat) (machine : Machine) : Machine → Prop
  | intro {stack : Array (Option Value)} (hstack : SameBelow mark machine.stack stack)
    (hwithin : machine.Within mark) : Twin mark machine { machine with stack := stack }

theorem Twin.within {mark : Nat} {machine other : Machine} (h : machine.Twin mark other) :
    machine.Within mark := by
  obtain ⟨-, hwithin⟩ := h
  exact hwithin

/-- The other machine differs at most in what is left on its stack above everything in use. -/
def Twins (machine other : Machine) : Prop :=
  ∃ mark, machine.Twin mark other

end Machine

namespace Run

open Machine

variable {mark slot : Nat} {machine other : Machine} {α β : Type}

/-- The action does the same in both machines, which differ no further than before. -/
abbrev Pairs (action : Run α) (machine other : Machine) : Prop :=
  Together action machine other (fun _ ↦ Twins) Twins

theorem Pairs.bind {action : Run α} {next : α → Run β} (h : Pairs action machine other)
    (hnext : ∀ yielded machine other, machine.Twins other → Pairs (next yielded) machine other) :
    Pairs (action >>= next) machine other :=
  Together.bind h hnext

theorem Pairs.pure (h : machine.Twins other) (yielded : α) :
    Pairs (Pure.pure yielded) machine other :=
  Together.pure h

theorem Pairs.throw (h : machine.Twins other) (error : RunError) :
    Pairs (MonadExcept.throw error : Run α) machine other :=
  Together.throw h

/-! ### Slots -/

theorem twin_getSp (h : machine.Twin mark other) :
    Together getSp machine other (fun sp machine other ↦ machine.Twin mark other ∧
      sp = machine.sp) Twins := by
  obtain ⟨hstack, hwithin⟩ := h
  exact .of_ok rfl rfl ⟨.intro hstack hwithin, rfl⟩

theorem twin_setSp (h : machine.Twin mark other) {sp : Nat} (hsp : sp ≤ mark) :
    Pairs (setSp sp) machine other := by
  obtain ⟨hstack, hwithin⟩ := h
  exact .of_ok rfl rfl ⟨mark, .intro hstack ⟨hsp, hwithin.frame, hwithin.callers⟩⟩

theorem twin_readSlot (h : machine.Twin mark other) (hslot : slot < mark) :
    Together (readSlot slot) machine other (fun _ ↦ Twin mark) Twins := by
  obtain ⟨hstack, hwithin⟩ := h
  have hsame := hstack.slots slot hslot
  cases hcontent : machine.stack[slot]? with
  | none =>
    exact .of_error (by rw [readSlot, hcontent]) (by rw [readSlot, ← hsame, hcontent])
      ⟨mark, .intro hstack hwithin⟩
  | some content =>
    exact .of_ok (by rw [readSlot, hcontent]) (by rw [readSlot, ← hsame, hcontent])
      (.intro hstack hwithin)

theorem twin_writeSlot (h : machine.Twin mark other) {more : Nat} (hmark : mark ≤ more)
    (hmore : ∀ index < more, index < mark ∨ index = slot) (content : Option Value) :
    Together (writeSlot slot content) machine other (fun _ ↦ Twin more) Twins := by
  obtain ⟨hstack, hwithin⟩ := h
  by_cases hslot : slot < stackSize
  · refine .of_ok (by rw [writeSlot, hstack.size, if_pos hslot])
      (by rw [writeSlot, hstack.sizeOther, if_pos hslot]) (.intro (hstack.set hmore content) ?_)
    exact ⟨hwithin.sp.trans hmark, hwithin.frame.trans hmark,
      fun caller hmem ↦ (hwithin.callers caller hmem).trans hmark⟩
  · exact .of_error (by rw [writeSlot, hstack.size, if_neg hslot])
      (by rw [writeSlot, hstack.sizeOther, if_neg hslot]) ⟨mark, .intro hstack hwithin⟩

theorem twin_takeSlot (h : machine.Twin mark other) (hslot : slot < mark) :
    Together (takeSlot slot) machine other (fun _ ↦ Twin mark) Twins := by
  refine (twin_readSlot h hslot).bind ?_
  rintro (_ | value) machine other h
  · exact .throw ⟨mark, h⟩
  · exact (twin_writeSlot h (Nat.le_refl mark) (fun _ ↦ .inl) none).bind fun _ _ _ h ↦ .pure h

theorem twin_takeSlots (h : machine.Twin mark other) {count : Nat} (hslots : slot + count ≤ mark)
    (done : List Value) :
    Together (takeSlots slot done count) machine other (fun _ ↦ Twin mark) Twins := by
  induction count generalizing slot done machine other with
  | zero => exact .pure h
  | succ count ih =>
    refine (twin_takeSlot h (by omega)).bind fun value _ _ h ↦ ?_
    exact ih h (by omega) _

theorem twin_clearSlots (h : machine.Twin mark other) (hslot : slot ≤ mark) (count : Nat) :
    Together (clearSlots slot count) machine other
      (fun _ machine other ↦ ∃ more, slot + count ≤ more ∧ machine.Twin more other) Twins := by
  induction count generalizing slot mark machine other with
  | zero => exact .pure ⟨mark, hslot, h⟩
  | succ count ih =>
    have hwrite := twin_writeSlot h (Nat.le_max_left mark (slot + 1))
      (fun index hindex ↦ (by omega : index < mark ∨ index = slot)) none
    refine hwrite.bind fun _ _ _ h ↦ (ih h (Nat.le_max_right mark (slot + 1))).mono ?_
    rintro _ _ _ ⟨more, hmore, h⟩
    exact ⟨more, by omega, h⟩

/-! ### The stack -/

theorem pairs_push (h : machine.Twins other) (value : Value) : Pairs (push value) machine other := by
  obtain ⟨mark, h⟩ := h
  refine (twin_getSp h).bind ?_
  rintro _ machine other ⟨h, rfl⟩
  have hsp := h.within.sp
  refine .check ⟨mark, h⟩ fun _ ↦ ?_
  have hwrite := twin_writeSlot h (Nat.le_max_left mark (machine.sp + 1))
    (fun index hindex ↦ (by omega : index < mark ∨ index = machine.sp)) (some value)
  exact hwrite.bind fun _ _ _ h ↦ twin_setSp h (Nat.le_max_right mark _)

theorem pairs_pop (h : machine.Twins other) : Pairs pop machine other := by
  obtain ⟨mark, h⟩ := h
  refine (twin_getSp h).bind ?_
  rintro sp machine other ⟨h, hsp⟩
  have hmark := h.within.sp
  cases sp with
  | zero => exact .throw ⟨mark, h⟩
  | succ top =>
    refine (twin_takeSlot h (by omega)).bind fun value _ _ h ↦ ?_
    exact (twin_setSp h (by omega)).bind fun _ _ _ h ↦ .pure h value

theorem pairs_takeTop (h : machine.Twins other) (count : Nat) :
    Pairs (takeTop count) machine other := by
  obtain ⟨mark, h⟩ := h
  refine (twin_getSp h).bind ?_
  rintro _ machine other ⟨h, rfl⟩
  have hmark := h.within.sp
  refine .check ⟨mark, h⟩ fun hcount ↦ ?_
  refine (twin_takeSlots h (by omega) []).bind fun values _ _ h ↦ ?_
  exact (twin_setSp h (by omega)).bind fun _ _ _ h ↦ .pure h values

/-! ### The rest of the state -/

theorem pairs_ofExcept (h : machine.Twins other) (result : Except RunError α) :
    Pairs (ofExcept result) machine other := by
  cases result with
  | ok value => exact .pure h value
  | error error => exact .throw h error

theorem pairs_freshLabel (h : machine.Twins other) : Pairs freshLabel machine other := by
  obtain ⟨mark, hstack, hwithin⟩ := h
  exact .of_ok rfl rfl ⟨mark, .intro hstack ⟨hwithin.sp, hwithin.frame, hwithin.callers⟩⟩

theorem pairs_print (h : machine.Twins other) (text : String) : Pairs (print text) machine other := by
  obtain ⟨mark, hstack, hwithin⟩ := h
  exact .of_ok rfl rfl ⟨mark, .intro hstack ⟨hwithin.sp, hwithin.frame, hwithin.callers⟩⟩

theorem pairs_setLastPopped (h : machine.Twins other) (value : Value) :
    Pairs (setLastPopped value) machine other := by
  obtain ⟨mark, hstack, hwithin⟩ := h
  exact .of_ok rfl rfl ⟨mark, .intro hstack ⟨hwithin.sp, hwithin.frame, hwithin.callers⟩⟩

theorem pairs_setIp (h : machine.Twins other) (ip : Nat) : Pairs (setIp ip) machine other := by
  obtain ⟨mark, hstack, hwithin⟩ := h
  exact .of_ok rfl rfl ⟨mark, .intro hstack ⟨hwithin.sp, hwithin.frame, hwithin.callers⟩⟩

theorem pairs_constant? (h : machine.Twins other) (entry : Nat) :
    Pairs (constant? entry) machine other := by
  obtain ⟨mark, hstack, hwithin⟩ := h
  exact .of_ok rfl rfl ⟨mark, .intro hstack hwithin⟩

theorem pairs_getFrame (h : machine.Twins other) :
    Together getFrame machine other
      (fun frame machine other ↦ frame = machine.frame ∧ machine.Twins other) Twins := by
  obtain ⟨mark, hstack, hwithin⟩ := h
  exact .of_ok rfl rfl ⟨rfl, mark, .intro hstack hwithin⟩

theorem pairs_atTopLevel (h : machine.Twins other) : Pairs atTopLevel machine other := by
  obtain ⟨mark, hstack, hwithin⟩ := h
  exact .of_ok rfl rfl ⟨mark, .intro hstack hwithin⟩

theorem pairs_readGlobal (h : machine.Twins other) (index : Nat) :
    Pairs (readGlobal index) machine other := by
  obtain ⟨mark, hstack, hwithin⟩ := h
  cases hindex : machine.globals[index]? with
  | none =>
    exact .of_error (by rw [readGlobal, hindex]) (by rw [readGlobal, hindex])
      ⟨mark, .intro hstack hwithin⟩
  | some content =>
    exact .of_ok (by rw [readGlobal, hindex]) (by rw [readGlobal, hindex])
      ⟨mark, .intro hstack hwithin⟩

theorem pairs_writeGlobal (h : machine.Twins other) (index : Nat) (value : Value) :
    Pairs (writeGlobal index value) machine other := by
  obtain ⟨mark, hstack, hwithin⟩ := h
  by_cases hindex : index < machine.globals.size
  · exact .of_ok (if_pos hindex) (if_pos hindex)
      ⟨mark, .intro hstack ⟨hwithin.sp, hwithin.frame, hwithin.callers⟩⟩
  · exact .of_error (if_neg hindex) (if_neg hindex) ⟨mark, .intro hstack hwithin⟩

/-! ### Operations -/

theorem pairs_arithmetic (h : machine.Twins other) (op : Opcode) :
    Pairs (arithmetic op) machine other := by
  refine (pairs_pop h).bind fun right _ _ h ↦ (pairs_pop h).bind fun left _ _ h ↦ ?_
  refine (pairs_freshLabel h).bind fun label _ _ h ↦ ?_
  exact (pairs_ofExcept h _).bind fun value _ _ h ↦ pairs_push h value

theorem pairs_comparison (h : machine.Twins other) (op : Opcode) :
    Pairs (comparison op) machine other := by
  refine (pairs_pop h).bind fun right _ _ h ↦ (pairs_pop h).bind fun left _ _ h ↦ ?_
  exact (pairs_ofExcept h _).bind fun value _ _ h ↦ pairs_push h (.boolean value)

theorem pairs_index (h : machine.Twins other) : Pairs index machine other := by
  refine (pairs_pop h).bind fun position _ _ h ↦ (pairs_pop h).bind fun collection _ _ h ↦ ?_
  exact (pairs_ofExcept h _).bind fun value _ _ h ↦ pairs_push h value

theorem pairs_loadConstant (h : machine.Twins other) (entry : Nat) :
    Pairs (loadConstant entry) machine other := by
  refine (pairs_constant? h entry).bind ?_
  rintro (_ | value) _ _ h
  · exact .throw h _
  · exact pairs_push h value

theorem pairs_loadGlobal (h : machine.Twins other) (index : Nat) :
    Pairs (loadGlobal index) machine other := by
  refine (pairs_readGlobal h index).bind ?_
  rintro (_ | value) _ _ h
  · exact .throw h _
  · exact pairs_push h value

theorem pairs_loadFree (h : machine.Twins other) (index : Nat) :
    Pairs (loadFree index) machine other := by
  refine (pairs_getFrame h).bind ?_
  rintro frame _ _ ⟨-, h⟩
  cases frame.free[index]? with
  | none => exact Pairs.throw h _
  | some value => exact pairs_push h value

theorem pairs_currentClosure (h : machine.Twins other) :
    Pairs (do push (← getFrame).closure) machine other := by
  refine (pairs_getFrame h).bind ?_
  rintro frame _ _ ⟨-, h⟩
  exact pairs_push h frame.closure

theorem pairs_loadBuiltin (h : machine.Twins other) (index : Nat) :
    Pairs (loadBuiltin index) machine other := by
  unfold loadBuiltin
  cases Builtin.ofIndex? index with
  | none => exact .throw h _
  | some builtin => exact pairs_push h (.builtin builtin)

theorem pairs_makeArray (h : machine.Twins other) (count : Nat) :
    Pairs (makeArray count) machine other := by
  refine (pairs_takeTop h count).bind fun elements _ _ h ↦ ?_
  exact (pairs_freshLabel h).bind fun label _ _ h ↦ pairs_push h (.array label elements)

theorem pairs_makeHash (h : machine.Twins other) (count : Nat) :
    Pairs (makeHash count) machine other := by
  refine (pairs_takeTop h count).bind fun items _ _ h ↦ ?_
  refine (pairs_ofExcept h _).bind fun entries _ _ h ↦ ?_
  exact (pairs_freshLabel h).bind fun label _ _ h ↦ pairs_push h (.hash label entries)

theorem pairs_makeClosure (h : machine.Twins other) (entry count : Nat) :
    Pairs (makeClosure entry count) machine other := by
  refine (pairs_constant? h entry).bind fun found _ _ h ↦ ?_
  split
  · refine (pairs_takeTop h count).bind fun free _ _ h ↦ ?_
    exact (pairs_freshLabel h).bind fun label _ _ h ↦ pairs_push h _
  · exact Pairs.throw h _

/-! ### Locals -/

/-- A slot of the function at work is in use. -/
theorem pairs_loadLocal (h : machine.Twins other) {index : Nat}
    (hindex : index < machine.frame.routine.locals) : Pairs (loadLocal index) machine other := by
  obtain ⟨mark, hstack, hwithin⟩ := h
  have hslot : machine.frame.base + index < mark :=
    Nat.lt_of_lt_of_le (Nat.add_lt_add_left hindex _) hwithin.frame
  unfold loadLocal
  refine Together.of_eq_from (getFrame_bind _) (getFrame_bind _) ?_
  have htwin := Twin.intro hstack hwithin
  refine .check ⟨mark, htwin⟩ fun _ ↦ (twin_readSlot htwin hslot).bind ?_
  rintro (_ | value) _ _ h
  · exact .throw ⟨mark, h⟩
  · exact pairs_push ⟨mark, h⟩ value

theorem pairs_storeLocal (h : machine.Twins other) (index : Nat) :
    Pairs (storeLocal index) machine other := by
  refine (pairs_pop h).bind fun value _ _ h ↦ (pairs_getFrame h).bind ?_
  rintro frame machine other ⟨-, mark, h⟩
  refine .check ⟨mark, h⟩ fun _ ↦ ?_
  exact (twin_writeSlot h (Nat.le_refl mark) (fun _ ↦ .inl) _).mono fun _ _ _ h ↦ ⟨mark, h⟩

/-! ### Calls -/

theorem pairs_callBuiltin (h : machine.Twins other) (builtin : Builtin) (count : Nat) :
    Pairs (callBuiltin builtin count) machine other := by
  refine (pairs_takeTop h count).bind fun arguments _ _ h ↦ ?_
  refine (pairs_print h _).bind fun _ _ _ h ↦ (pairs_freshLabel h).bind fun label _ _ h ↦ ?_
  obtain ⟨mark, h⟩ := h
  refine (twin_getSp h).bind ?_
  rintro (_ | callee) machine other ⟨h, hsp⟩
  · exact .throw ⟨mark, h⟩
  · have hmark := h.within.sp
    exact (twin_setSp h (by omega)).bind fun _ _ _ h ↦ pairs_push h _

/-- The locals of a function that is called are cleared. -/
theorem pairs_callClosure (h : machine.Twins other) (label : Label) (routine : Routine)
    (free : List Value) (count : Nat) :
    Pairs (callClosure label routine free count) machine other := by
  obtain ⟨mark, h⟩ := h
  have hmark := h.within.sp
  unfold callClosure
  refine .check ⟨mark, h⟩ fun _ ↦ .look (by obtain ⟨-, -⟩ := h; rfl) ?_
  refine .check ⟨mark, h⟩ fun _ ↦ .check ⟨mark, h⟩ fun hcount ↦ .check ⟨mark, h⟩ fun _ ↦ ?_
  refine (twin_clearSlots h (by omega) _).bind ?_
  rintro _ _ _ ⟨more, hmore, hstack, hwithin⟩
  refine .of_ok rfl rfl ⟨more, .intro hstack ⟨?_, ?_, fun caller hmem ↦ ?_⟩⟩
  · dsimp only
    omega
  · dsimp only [Frame.ceiling]
    omega
  · rcases Array.mem_push.mp hmem with hwaits | rfl
    · exact hwithin.callers caller hwaits
    · exact hwithin.frame

theorem pairs_call (h : machine.Twins other) (count : Nat) : Pairs (call count) machine other := by
  obtain ⟨mark, h⟩ := h
  refine (twin_getSp h).bind ?_
  rintro _ machine other ⟨h, rfl⟩
  have hmark := h.within.sp
  refine .check ⟨mark, h⟩ fun hcount ↦ (twin_readSlot h (by omega)).bind ?_
  rintro (_ | callee) _ _ h
  · exact .throw ⟨mark, h⟩
  cases callee with
  | closure label routine free => exact pairs_callClosure ⟨mark, h⟩ label routine free count
  | builtin builtin => exact pairs_callBuiltin ⟨mark, h⟩ builtin count
  | _ => exact .throw ⟨mark, h⟩

theorem pairs_returnFromCall (h : machine.Twins other) (value : Value) :
    Pairs (returnFromCall value) machine other := by
  obtain ⟨mark, h⟩ := h
  have hbase : machine.frame.base ≤ mark := (Nat.le_add_right _ _).trans h.within.frame
  unfold returnFromCall
  refine .look (by obtain ⟨-, -⟩ := h; rfl) ?_
  cases hback : machine.callers.back? with
  | none => exact .throw ⟨mark, h⟩
  | some caller =>
    have hmoves : Together (modify fun machine ↦
        { machine with callers := machine.callers.pop, frame := caller } : Run Unit) machine other
        (fun _ ↦ Twin mark) Twins := by
      obtain ⟨hstack, hwithin⟩ := h
      obtain ⟨callers, hcallers⟩ := Array.back?_eq_some_iff.mp hback
      have hcovered := hwithin.callers
      rw [hcallers] at hcovered
      refine .of_ok rfl rfl (.intro hstack ⟨hwithin.sp, hcovered caller Array.mem_push_self,
        fun other hmem ↦ hcovered other ?_⟩)
      dsimp only at hmem
      rw [hcallers, Array.pop_push] at hmem
      exact Array.mem_push_of_mem _ hmem
    refine hmoves.bind fun _ _ _ h ↦ ?_
    generalize machine.frame.base = base at hbase
    cases base with
    | zero => exact .throw ⟨mark, h⟩
    | succ callee => exact (twin_setSp h (by omega)).bind fun _ _ _ h ↦ pairs_push h value

theorem pairs_returnWith (h : machine.Twins other) (value : Value) :
    Pairs (returnWith value) machine other := by
  refine (pairs_atTopLevel h).bind ?_
  rintro (_ | _) _ _ h
  · exact (pairs_returnFromCall h value).bind fun _ _ _ h ↦ .pure h _
  · obtain ⟨mark, h⟩ := h
    have hfinish : Pairs (finish value) _ _ :=
      (twin_setSp h (Nat.zero_le mark)).bind fun _ _ _ h ↦ pairs_setLastPopped h value
    exact hfinish.bind fun _ _ _ h ↦ .pure h _

/-! ### Instructions -/

theorem Pairs.goOn {action : Run Unit} (h : Pairs action machine other) :
    Pairs (goOn action) machine other :=
  h.bind fun _ _ _ h ↦ .pure h _

theorem pairs_perform (h : machine.Twins other) {instruction : Instruction}
    {constants : Array Value} {limits : Limits} (hfits : instruction.Fits)
    (hvalid : instruction.Valid constants limits)
    (hlocals : limits.locals = machine.frame.routine.locals) :
    Pairs (perform instruction) machine other := by
  obtain ⟨opcode, operands⟩ := instruction
  cases opcode
  case closure =>
    obtain ⟨entry, count, rfl, _⟩ := hfits.eq_pair rfl
    exact (pairs_makeClosure h entry count).goOn
  case constant =>
    obtain ⟨entry, rfl, _⟩ := hfits.eq_single rfl
    exact (pairs_loadConstant h entry).goOn
  case jump =>
    obtain ⟨target, rfl, _⟩ := hfits.eq_single rfl
    exact (pairs_setIp h target).goOn
  case jumpNotTruthy =>
    obtain ⟨target, rfl, _⟩ := hfits.eq_single rfl
    refine ((pairs_pop h).bind fun value _ _ h ↦ ?_).goOn
    split
    · exact pairs_setIp h target
    · exact Pairs.pure h ()
  case setGlobal =>
    obtain ⟨index, rfl, _⟩ := hfits.eq_single rfl
    exact ((pairs_pop h).bind fun value _ _ h ↦ pairs_writeGlobal h index value).goOn
  case getGlobal =>
    obtain ⟨index, rfl, _⟩ := hfits.eq_single rfl
    exact (pairs_loadGlobal h index).goOn
  case setLocal =>
    obtain ⟨index, rfl, _⟩ := hfits.eq_single rfl
    exact (pairs_storeLocal h index).goOn
  case getLocal =>
    obtain ⟨index, rfl, _⟩ := hfits.eq_single rfl
    exact (pairs_loadLocal h (hlocals ▸ hvalid)).goOn
  case getFree =>
    obtain ⟨index, rfl, _⟩ := hfits.eq_single rfl
    exact (pairs_loadFree h index).goOn
  case getBuiltin =>
    obtain ⟨index, rfl, _⟩ := hfits.eq_single rfl
    exact (pairs_loadBuiltin h index).goOn
  case array =>
    obtain ⟨count, rfl, _⟩ := hfits.eq_single rfl
    exact (pairs_makeArray h count).goOn
  case hash =>
    obtain ⟨count, rfl, _⟩ := hfits.eq_single rfl
    exact (pairs_makeHash h count).goOn
  case call =>
    obtain ⟨count, rfl, _⟩ := hfits.eq_single rfl
    exact (pairs_call h count).goOn
  all_goals
    obtain rfl := hfits.eq_nil rfl
  case add | sub | mul | div => exact (pairs_arithmetic h _).goOn
  case equal | notEqual | greaterThan => exact (pairs_comparison h _).goOn
  case bang => exact ((pairs_pop h).bind fun value _ _ h ↦ pairs_push h _).goOn
  case minus =>
    exact ((pairs_pop h).bind fun value _ _ h ↦
      (pairs_ofExcept h _).bind fun result _ _ h ↦ pairs_push h result).goOn
  case true | false => exact (pairs_push h (.boolean _)).goOn
  case null => exact (pairs_push h .null).goOn
  case pop => exact ((pairs_pop h).bind fun value _ _ h ↦ pairs_setLastPopped h value).goOn
  case index => exact (pairs_index h).goOn
  case currentClosure => exact (pairs_currentClosure h).goOn
  case returnValue => exact (pairs_pop h).bind fun value _ _ h ↦ pairs_returnWith h value
  case ret => exact pairs_returnWith h .null

end Run

/-! ### Runs -/

namespace Machine

variable {constants : Array Value} {globals longest count : Nat} {machine other last : Machine}
  {result : EStateM.Result RunError Machine Unit}

/-- Another stack for the machine, which may hold anything above what is in use. -/
structure Spares (machine : Machine) (stack : Array (Option Value)) : Prop where
  size : stack.size = machine.stack.size
  used (slot : Nat) : slot < machine.waterline → stack[slot]? = machine.stack[slot]?

theorem Spares.twins {stack : Array (Option Value)} (h : machine.Spares stack)
    (hsize : machine.stack.size = stackSize) : machine.Twins { machine with stack := stack } :=
  ⟨machine.waterline, .intro ⟨hsize, h.size.trans hsize, fun slot hslot ↦ (h.used slot hslot).symm⟩
    (waterline_le_iff.mp (Nat.le_refl _))⟩

/-- Both runs end, or fail with the same error, and the machines that they leave are the same but
for the stack. -/
inductive SameButStack :
    EStateM.Result RunError Machine Unit → EStateM.Result RunError Machine Unit → Prop
  | ok (machine : Machine) (stack : Array (Option Value)) :
    SameButStack (.ok () machine) (.ok () { machine with stack := stack })
  | error (error : RunError) (machine : Machine) (stack : Array (Option Value)) :
    SameButStack (.error error machine) (.error error { machine with stack := stack })

theorem Twins.advance (h : machine.Twins other) (length : Nat) :
    (machine.advance length).Twins (other.advance length) := by
  obtain ⟨mark, hstack, hwithin⟩ := h
  exact ⟨mark, .intro hstack ⟨hwithin.sp, hwithin.frame, hwithin.callers⟩⟩

/-- A step from a machine that is in order. -/
theorem Twins.step (h : machine.Twins other) (hsound : machine.Sound constants globals longest) :
    Run.Pairs Run.step machine other := by
  have hframe : other.frame = machine.frame := by
    obtain ⟨mark, -, -⟩ := h
    rfl
  rcases hsound.frame.instruction with hend | ⟨instruction, hloaded, hfits, hvalid, -⟩
  · have hempty : other.callers = machine.callers := by
      obtain ⟨mark, -, -⟩ := h
      rfl
    have hfirst := Run.step_at_end hend
    have hsecond := Run.step_at_end (hframe ▸ hend : other.frame.ip = _)
    rw [hempty] at hsecond
    by_cases htop : machine.callers.isEmpty
    · rw [if_pos htop] at hfirst hsecond
      exact .of_ok hfirst hsecond h
    · rw [if_neg htop] at hfirst hsecond
      exact .of_eq_from hfirst hsecond (Run.pairs_returnFromCall h .null).goOn
  · exact .of_eq_from (Run.step_eq_perform hloaded hfits)
      (Run.step_eq_perform (hframe ▸ hloaded) hfits)
      (Run.pairs_perform (h.advance _) hfits hvalid rfl)

section Runs

variable (hpool : ValidPool constants globals) (hlongest : CodeWithin constants longest)

include hpool hlongest

theorem Twins.reaches (h : machine.Twins other) (hsound : machine.Sound constants globals longest)
    (hreaches : machine.Reaches count last) : ∃ same, other.Reaches count same ∧ last.Twins same := by
  induction hreaches generalizing other with
  | here _ => exact ⟨other, .here _, h⟩
  | next hstep _ ih =>
    obtain ⟨_, hsecond, htwins⟩ := (h.step hsound).at_ok hstep
    obtain ⟨same, hrest, hlast⟩ := ih htwins (hsound.next hpool hlongest hstep)
    exact ⟨same, .next hsecond hrest, hlast⟩

/-- The stack keeps its size. -/
theorem Sound.size_stack (h : machine.Sound constants globals longest)
    (hsize : machine.stack.size = stackSize) (hreaches : machine.Reaches count last) :
    last.stack.size = stackSize := by
  have hsame : machine.Spares machine.stack := ⟨rfl, fun _ _ ↦ rfl⟩
  obtain ⟨_, _, mark, hstack, _⟩ := (hsame.twins hsize).reaches hpool hlongest h hreaches
  exact hstack.size

theorem Twins.halts (h : machine.Twins other) (hsound : machine.Sound constants globals longest)
    (hhalts : machine.Halts count result) :
    ∃ same, other.Halts count same ∧ SameButStack result same := by
  obtain ⟨last, hreaches, hstops⟩ := hhalts
  obtain ⟨same, hsame, htwins⟩ := h.reaches hpool hlongest hsound hreaches
  have hlast := htwins.step (hsound.reaches hpool hlongest hreaches)
  cases hstops with
  | finished hstep =>
    obtain ⟨after, hother, mark, -, -⟩ := hlast.at_ok hstep
    exact ⟨_, ⟨same, hsame, .finished hother⟩, .ok _ _⟩
  | failed hstep =>
    obtain ⟨after, hother, mark, -, -⟩ := hlast.at_error hstep
    exact ⟨_, ⟨same, hsame, .failed hother⟩, .error _ _ _⟩

end Runs

end Machine

end StackScript
