import StackScript.Proofs.Bytecode.WellFormed
import StackScript.Proofs.Machine.Stack
import StackScript.Proofs.Machine.Decode
import StackScript.Proofs.Program.Depth

/-!
Operations on a stack of which one knows how many operands there are above the cells of other
functions and the locals. An operation that finds as many operands as it takes does not fail for
want of them; it puts others in their place, and may change the locals, but nothing below them
(`Run.trades_perform`). Calls, jumps and returns are dealt with apart.
-/

set_option autoImplicit false
set_option relaxedAutoImplicit false

namespace StackScript

namespace Machine

/-- Above the lower cells there are so many operands, and nothing else. -/
def Stacked (machine : Machine) (lower : List (Option Value)) (count : Nat) : Prop :=
  ∃ operands : List Value, operands.length = count ∧
    Shows machine.stack (lower ++ operands.map some) ∧ machine.sp = lower.length + count

/-- Above the lower cells and so many locals there are so many operands. -/
def Works (machine : Machine) (below : List (Option Value)) (slots count : Nat) : Prop :=
  ∃ locals : List (Option Value), locals.length = slots ∧ machine.Stacked (below ++ locals) count

/-- Above the lower cells there are the locals as they were, but for one that the instruction sets,
and so many operands. -/
def Retains (machine : Machine) (below locals : List (Option Value)) (instruction : Instruction)
    (count : Nat) : Prop :=
  ∃ more : List (Option Value), more.length = locals.length ∧
    (∀ index, instruction ≠ ⟨.setLocal, [index]⟩ → more[index]? = locals[index]?) ∧
    machine.Stacked (below ++ more) count

end Machine

namespace Run

open Machine

variable {machine : Machine} {α β : Type} {property : α → Machine → Prop}
  {further : β → Machine → Prop}

/-- The action leaves the functions at work as they are and comes to what satisfies the property;
if it fails, then not for want of operands. -/
def Trades (action : Run α) (machine : Machine) (property : α → Machine → Prop) : Prop :=
  Ends action machine
    (fun yielded after ↦ after.frame = machine.frame ∧ after.callers = machine.callers ∧
      property yielded after)
    fun error _ ↦ error ≠ .stackUnderflow

theorem Trades.bind {action : Run α} {next : α → Run β} (h : Trades action machine property)
    (hnext : ∀ yielded after, after.frame = machine.frame → property yielded after →
      Trades (next yielded) after further) :
    Trades (action >>= next) machine further := by
  refine Ends.bind h ?_
  rintro yielded middle ⟨hframe, hcallers, hproperty⟩
  refine (hnext yielded middle hframe hproperty).mono ?_ fun _ _ hfailed ↦ hfailed
  rintro _ after ⟨hsame, hkept, hfurther⟩
  exact ⟨hsame.trans hframe, hkept.trans hcallers, hfurther⟩

theorem Trades.pure {yielded : α} (h : property yielded machine) :
    Trades (Pure.pure yielded) machine property :=
  Ends.pure ⟨rfl, rfl, h⟩

theorem Trades.throw {error : RunError} (h : error ≠ .stackUnderflow) :
    Trades (MonadExcept.throw error) machine property :=
  Ends.throw h

theorem Trades.mono {action : Run α} {weaker : α → Machine → Prop}
    (h : Trades action machine property)
    (hweaker : ∀ yielded after, property yielded after → weaker yielded after) :
    Trades action machine weaker :=
  Ends.mono h (fun yielded after hdone ↦ ⟨hdone.1, hdone.2.1, hweaker yielded after hdone.2.2⟩)
    fun _ _ hfailed ↦ hfailed

theorem Trades.of_ok {action : Run α} {yielded : α} {after : Machine}
    (h : action machine = .ok yielded after) (hframe : after.frame = machine.frame)
    (hcallers : after.callers = machine.callers) (hproperty : property yielded after) :
    Trades action machine property :=
  Ends.of_ok h ⟨hframe, hcallers, hproperty⟩

theorem Trades.of_error {action : Run α} {error : RunError} {after : Machine}
    (h : action machine = .error error after) (herror : error ≠ .stackUnderflow) :
    Trades action machine property :=
  Ends.of_error h herror

/-- A check before other steps. -/
theorem Trades.check {c : Prop} [Decidable c] {error : RunError} {next : PUnit → Run α}
    (herror : error ≠ .stackUnderflow) (hnext : ¬c → Trades (next ⟨⟩) machine property) :
    Trades (if c then (do next (← MonadExcept.throw error)) else next ⟨⟩) machine property :=
  Ends.check (fun _ ↦ herror) hnext

/-! ### Operands -/

section Stack

variable {lower : List (Option Value)} {count : Nat}

theorem trades_push (h : machine.Stacked lower count) (value : Value) :
    Trades (push value) machine fun _ after ↦ after.Stacked lower (count + 1) := by
  obtain ⟨operands, rfl, hshows, hsp⟩ := h
  have hlength : (lower ++ operands.map some).length = machine.sp := by simp [hsp]
  by_cases hroom : machine.sp < stackSize
  · obtain ⟨stack, hpush, hpushed⟩ := push_of_shows hshows hlength.symm (hlength ▸ hroom) value
    refine .of_ok hpush rfl rfl ⟨operands ++ [value], by simp, by simpa using hpushed, ?_⟩
    simp [Nat.add_assoc]
  · exact .of_error (push_of_full (Nat.le_of_not_lt hroom) value) (by simp)

theorem trades_takeTop {taken : Nat} (h : machine.Stacked lower (count + taken)) :
    Trades (takeTop taken) machine fun _ after ↦ after.Stacked lower count := by
  obtain ⟨operands, hlength, hshows, hsp⟩ := h
  obtain ⟨kept, values, rfl, rfl⟩ : ∃ kept values, operands = kept ++ values ∧
      values.length = taken :=
    ⟨operands.take count, operands.drop count, by simp, by simp [hlength]⟩
  have hkept : kept.length = count := by
    rw [List.length_append] at hlength
    exact Nat.add_right_cancel hlength
  rw [List.map_append, ← List.append_assoc] at hshows
  obtain ⟨stack, htake, hleft⟩ := takeTop_of_shows hshows (by simp [hsp, hkept, Nat.add_assoc])
  exact .of_ok htake rfl rfl ⟨kept, hkept, hleft, by simp [hkept]⟩

theorem trades_pop (h : machine.Stacked lower (count + 1)) :
    Trades pop machine fun _ after ↦ after.Stacked lower count := by
  obtain ⟨operands, hlength, hshows, hsp⟩ := h
  obtain ⟨kept, value, rfl⟩ : ∃ kept value, operands = kept ++ [value] :=
    ⟨_, _, (List.dropLast_concat_getLast (List.length_pos_iff.mp (by omega))).symm⟩
  have hkept : kept.length = count := by simpa using hlength
  rw [List.map_append, ← List.append_assoc] at hshows
  obtain ⟨stack, hpop, hleft⟩ := pop_of_shows hshows (by simp [hsp, hkept, Nat.add_assoc])
  exact .of_ok hpop rfl rfl ⟨kept, hkept, hleft, by simp [hkept]⟩

/-! ### Other steps -/

theorem trades_ofExcept {result : Except RunError α} (h : machine.Stacked lower count)
    (herror : ∀ error, result = .error error → error.isOfValues) :
    Trades (ofExcept result) machine fun _ after ↦ after.Stacked lower count := by
  cases result with
  | ok value => exact .pure h
  | error error =>
    refine .throw ?_
    rintro rfl
    cases herror _ rfl

theorem trades_freshLabel (h : machine.Stacked lower count) :
    Trades freshLabel machine fun _ after ↦ after.Stacked lower count :=
  .of_ok rfl rfl rfl h

theorem trades_print (h : machine.Stacked lower count) (text : String) :
    Trades (print text) machine fun _ after ↦ after.Stacked lower count :=
  .of_ok rfl rfl rfl h

theorem trades_setLastPopped (h : machine.Stacked lower count) (value : Value) :
    Trades (setLastPopped value) machine fun _ after ↦ after.Stacked lower count :=
  .of_ok rfl rfl rfl h

theorem trades_getFrame (h : machine.Stacked lower count) :
    Trades getFrame machine fun frame after ↦ frame = machine.frame ∧ after.Stacked lower count :=
  .of_ok rfl rfl rfl ⟨rfl, h⟩

theorem trades_constant? (h : machine.Stacked lower count) (entry : Nat) :
    Trades (constant? entry) machine fun _ after ↦ after.Stacked lower count :=
  .of_ok rfl rfl rfl h

theorem trades_readSlot (h : machine.Stacked lower count) (slot : Nat) :
    Trades (readSlot slot) machine fun _ after ↦ after.Stacked lower count := by
  unfold Trades Ends readSlot
  cases machine.stack[slot]? with
  | none => simp
  | some content => exact ⟨rfl, rfl, h⟩

theorem trades_readGlobal (h : machine.Stacked lower count) (index : Nat) :
    Trades (readGlobal index) machine fun _ after ↦ after.Stacked lower count := by
  unfold Trades Ends readGlobal
  cases machine.globals[index]? with
  | none => simp
  | some content => exact ⟨rfl, rfl, h⟩

theorem trades_writeGlobal (h : machine.Stacked lower count) (index : Nat) (value : Value) :
    Trades (writeGlobal index value) machine fun _ after ↦ after.Stacked lower count := by
  unfold Trades Ends writeGlobal
  by_cases hindex : index < machine.globals.size
  · rw [if_pos hindex]
    exact ⟨rfl, rfl, h⟩
  · rw [if_neg hindex]
    simp

/-! ### Operations -/

theorem trades_arithmetic {op : Opcode} (hop : op ∈ [.add, .sub, .mul, .div])
    (h : machine.Stacked lower (count + 2)) :
    Trades (arithmetic op) machine fun _ after ↦ after.Stacked lower (count + 1) := by
  refine (trades_pop h).bind fun right _ _ hright ↦ (trades_pop hright).bind fun left _ _ hleft ↦ ?_
  refine (trades_freshLabel hleft).bind fun label _ _ hlabel ↦ ?_
  refine (trades_ofExcept hlabel fun _ h ↦ isOfValues_of_operate hop h).bind ?_
  exact fun value _ _ hvalue ↦ trades_push hvalue value

theorem trades_comparison {op : Opcode} (hop : op ∈ [.equal, .notEqual, .greaterThan])
    (h : machine.Stacked lower (count + 2)) :
    Trades (comparison op) machine fun _ after ↦ after.Stacked lower (count + 1) := by
  refine (trades_pop h).bind fun right _ _ hright ↦ (trades_pop hright).bind fun left _ _ hleft ↦ ?_
  refine (trades_ofExcept hleft fun _ h ↦ isOfValues_of_compare hop h).bind ?_
  exact fun value _ _ hvalue ↦ trades_push hvalue (.boolean value)

theorem trades_negate (h : machine.Stacked lower (count + 1)) :
    Trades (do push (← ofExcept (← pop).negate)) machine fun _ after ↦
      after.Stacked lower (count + 1) := by
  refine (trades_pop h).bind fun value _ _ hvalue ↦ ?_
  refine (trades_ofExcept hvalue fun _ h ↦ isOfValues_of_negate h).bind ?_
  exact fun result _ _ hresult ↦ trades_push hresult result

theorem trades_index (h : machine.Stacked lower (count + 2)) :
    Trades index machine fun _ after ↦ after.Stacked lower (count + 1) := by
  refine (trades_pop h).bind fun position _ _ hposition ↦ ?_
  refine (trades_pop hposition).bind fun collection _ _ hcollection ↦ ?_
  refine (trades_ofExcept hcollection fun _ h ↦ isOfValues_of_lookUp h).bind ?_
  exact fun value _ _ hvalue ↦ trades_push hvalue value

theorem trades_loadConstant (h : machine.Stacked lower count) (entry : Nat) :
    Trades (loadConstant entry) machine fun _ after ↦ after.Stacked lower (count + 1) := by
  refine (trades_constant? h entry).bind ?_
  rintro (_ | value) after _ hafter
  · exact .throw (by simp)
  · exact trades_push hafter value

theorem trades_loadGlobal (h : machine.Stacked lower count) (index : Nat) :
    Trades (loadGlobal index) machine fun _ after ↦ after.Stacked lower (count + 1) := by
  refine (trades_readGlobal h index).bind ?_
  rintro (_ | value) after _ hafter
  · exact .throw (by simp)
  · exact trades_push hafter value

theorem trades_loadLocal (h : machine.Stacked lower count) (index : Nat) :
    Trades (loadLocal index) machine fun _ after ↦ after.Stacked lower (count + 1) := by
  refine (trades_getFrame h).bind ?_
  rintro frame after _ ⟨rfl, hafter⟩
  refine .check (by simp) fun _ ↦ (trades_readSlot hafter _).bind ?_
  rintro (_ | value) after _ hafter
  · exact .throw (by simp)
  · exact trades_push hafter value

theorem trades_loadFree (h : machine.Stacked lower count) (index : Nat) :
    Trades (loadFree index) machine fun _ after ↦ after.Stacked lower (count + 1) := by
  refine (trades_getFrame h).bind ?_
  rintro frame after _ ⟨rfl, hafter⟩
  cases machine.frame.free[index]? with
  | none => exact .throw (by simp)
  | some value => exact trades_push hafter value

theorem trades_loadBuiltin (h : machine.Stacked lower count) (index : Nat) :
    Trades (loadBuiltin index) machine fun _ after ↦ after.Stacked lower (count + 1) := by
  unfold loadBuiltin
  cases Builtin.ofIndex? index with
  | none => exact .throw (by simp)
  | some builtin => exact trades_push h (.builtin builtin)

theorem trades_makeArray {taken : Nat} (h : machine.Stacked lower (count + taken)) :
    Trades (makeArray taken) machine fun _ after ↦ after.Stacked lower (count + 1) := by
  refine (trades_takeTop h).bind fun elements _ _ helements ↦ ?_
  refine (trades_freshLabel helements).bind fun label _ _ hlabel ↦ ?_
  exact trades_push hlabel (.array label elements)

theorem trades_makeHash {taken : Nat} (h : machine.Stacked lower (count + taken)) :
    Trades (makeHash taken) machine fun _ after ↦ after.Stacked lower (count + 1) := by
  refine (trades_takeTop h).bind fun items _ _ hitems ↦ ?_
  refine (trades_ofExcept hitems fun _ h ↦ isOfValues_of_addAll h).bind
    fun entries _ _ hentries ↦ ?_
  refine (trades_freshLabel hentries).bind fun label _ _ hlabel ↦ ?_
  exact trades_push hlabel (.hash label entries)

theorem trades_makeClosure {taken : Nat} (h : machine.Stacked lower (count + taken))
    (entry : Nat) :
    Trades (makeClosure entry taken) machine fun _ after ↦ after.Stacked lower (count + 1) := by
  refine (trades_constant? h entry).bind fun found after _ hafter ↦ ?_
  split
  · refine (trades_takeTop hafter).bind fun free _ _ hfree ↦ ?_
    exact (trades_freshLabel hfree).bind fun label _ _ hlabel ↦ trades_push hlabel _
  · exact .throw (by simp)

theorem trades_callBuiltin {taken : Nat} (h : machine.Stacked lower (count + 1 + taken))
    (builtin : Builtin) :
    Trades (callBuiltin builtin taken) machine fun _ after ↦ after.Stacked lower (count + 1) := by
  refine (trades_takeTop h).bind fun arguments _ _ harguments ↦ ?_
  refine (trades_print harguments _).bind fun _ _ _ hprinted ↦ ?_
  refine (trades_freshLabel hprinted).bind fun label after _ hlabel ↦ ?_
  obtain ⟨operands, hlength, hshows, hsp⟩ := hlabel
  obtain ⟨kept, callee, rfl⟩ : ∃ kept callee, operands = kept ++ [callee] :=
    ⟨_, _, (List.dropLast_concat_getLast (List.length_pos_iff.mp (by omega))).symm⟩
  have hkept : kept.length = count := by simpa using hlength
  rw [List.map_append, ← List.append_assoc] at hshows
  -- the result is written over the callee, which is not taken out before
  have hleft : Stacked { after with sp := lower.length + count } lower count :=
    ⟨kept, hkept, hshows.left, rfl⟩
  have hset : Trades (setSp (lower.length + count)) after fun _ last ↦
      last.Stacked lower count := .of_ok rfl rfl rfl hleft
  refine Ends.of_eq (getSp_bind _) ?_
  rw [hsp]
  exact hset.bind fun _ _ _ hlast ↦ trades_push hlast _

end Stack

/-! ### Locals -/

variable {below locals : List (Option Value)} {slots count : Nat}

theorem Trades.works {action : Run α}
    (h : Trades action machine fun _ after ↦ after.Stacked (below ++ locals) count) :
    Trades action machine fun _ after ↦ after.Works below locals.length count :=
  h.mono fun _ _ hafter ↦ ⟨locals, rfl, hafter⟩

theorem Trades.retains {action : Run α}
    (h : Trades action machine fun _ after ↦ after.Stacked (below ++ locals) count)
    (instruction : Instruction) :
    Trades action machine fun _ after ↦ after.Retains below locals instruction count :=
  h.mono fun _ _ hafter ↦ ⟨locals, rfl, fun _ _ ↦ rfl, hafter⟩

theorem trades_storeLocal {index : Nat} (hbase : machine.frame.base = below.length)
    (hindex : index < locals.length) (h : machine.Stacked (below ++ locals) (count + 1)) :
    Trades (storeLocal index) machine fun _ after ↦
      after.Retains below locals ⟨.setLocal, [index]⟩ count := by
  refine (trades_pop h).bind fun value middle hframe hmiddle ↦ ?_
  refine (trades_getFrame hmiddle).bind ?_
  rintro _ after _ ⟨rfl, operands, rfl, hshows, hsp⟩
  rw [hframe, hbase]
  refine .check (by simp) fun hroom ↦ ?_
  refine .of_ok (writeSlot_of_shows hshows (Nat.lt_of_not_le hroom) (some value)) rfl rfl ?_
  refine ⟨locals.set index (some value), List.length_set, fun other hother ↦ ?_, operands, rfl, ?_,
    by simpa using hsp⟩
  · exact List.getElem?_set_ne fun hsame ↦ hother (by rw [hsame])
  have hset := hshows.set (below.length + index) (some value)
  rwa [List.append_assoc, List.set_append_right _ _ (Nat.le_add_right _ _), Nat.add_sub_cancel_left,
    List.set_append_left _ _ hindex, ← List.append_assoc] at hset

/-! ### Instructions -/

theorem Trades.goOn {action : Run Unit} {property : Machine → Prop}
    (h : Trades action machine fun _ ↦ property) :
    Trades (goOn action) machine fun progress after ↦ progress = .running ∧ property after :=
  h.bind fun _ _ _ hafter ↦ .pure ⟨rfl, hafter⟩

/-- An instruction that is no call and leads to the next one. -/
theorem trades_perform {instruction : Instruction} {constants : Array Value} {limits : Limits}
    (hfits : instruction.Fits) (hvalid : instruction.Valid constants limits)
    (hleads : instruction.leadsOn) (htarget : instruction.target? = none)
    (hcall : instruction.opcode ≠ .call) (hbase : machine.frame.base = below.length)
    (hlocals : locals.length = limits.locals)
    (h : machine.Stacked (below ++ locals) (count + instruction.takes)) :
    Trades (perform instruction) machine fun progress after ↦
      progress = .running ∧ after.Retains below locals instruction (count + instruction.leaves) := by
  obtain ⟨opcode, operands⟩ := instruction
  cases opcode
  case setLocal =>
    obtain ⟨index, rfl, _⟩ := hfits.eq_single rfl
    exact (trades_storeLocal hbase (hlocals ▸ hvalid) h).goOn
  case constant =>
    obtain ⟨entry, rfl, _⟩ := hfits.eq_single rfl
    exact ((trades_loadConstant h entry).retains _).goOn
  case closure =>
    obtain ⟨entry, taken, rfl, _⟩ := hfits.eq_pair rfl
    exact ((trades_makeClosure h entry).retains _).goOn
  case setGlobal =>
    obtain ⟨index, rfl, _⟩ := hfits.eq_single rfl
    exact (((trades_pop h).bind fun value _ _ hvalue ↦
      trades_writeGlobal hvalue index value).retains _).goOn
  case getGlobal =>
    obtain ⟨index, rfl, _⟩ := hfits.eq_single rfl
    exact ((trades_loadGlobal h index).retains _).goOn
  case getLocal =>
    obtain ⟨index, rfl, _⟩ := hfits.eq_single rfl
    exact ((trades_loadLocal h index).retains _).goOn
  case getFree =>
    obtain ⟨index, rfl, _⟩ := hfits.eq_single rfl
    exact ((trades_loadFree h index).retains _).goOn
  case getBuiltin =>
    obtain ⟨index, rfl, _⟩ := hfits.eq_single rfl
    exact ((trades_loadBuiltin h index).retains _).goOn
  case array =>
    obtain ⟨taken, rfl, _⟩ := hfits.eq_single rfl
    exact ((trades_makeArray h).retains _).goOn
  case hash =>
    obtain ⟨taken, rfl, _⟩ := hfits.eq_single rfl
    exact ((trades_makeHash h).retains _).goOn
  case jump | jumpNotTruthy =>
    obtain ⟨target, rfl, _⟩ := hfits.eq_single rfl
    cases htarget
  case call => exact absurd rfl hcall
  case returnValue | ret => cases hleads
  all_goals
    obtain rfl := hfits.eq_nil rfl
  case add | sub | mul | div => exact ((trades_arithmetic (by simp) h).retains _).goOn
  case equal | notEqual | greaterThan => exact ((trades_comparison (by simp) h).retains _).goOn
  case bang =>
    exact (((trades_pop h).bind fun value _ _ hvalue ↦ trades_push hvalue _).retains _).goOn
  case minus => exact ((trades_negate h).retains _).goOn
  case true | false => exact ((trades_push h (.boolean _)).retains _).goOn
  case null => exact ((trades_push h .null).retains _).goOn
  case pop =>
    exact (((trades_pop h).bind fun value _ _ hvalue ↦
      trades_setLastPopped hvalue value).retains _).goOn
  case index => exact ((trades_index h).retains _).goOn
  case currentClosure =>
    exact (((trades_getFrame h).bind fun frame _ _ hframe ↦
      trades_push hframe.2 frame.closure).retains _).goOn

end Run

end StackScript
