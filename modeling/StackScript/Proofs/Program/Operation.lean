import StackScript.Proofs.Program.Site

/-!
Instructions at a site. Each instruction but calls and jumps is carried out as evaluation says: the
operands that waited are gone, a related result waits in their place, and where evaluation fails the
machine fails alike.
-/

set_option autoImplicit false
set_option relaxedAutoImplicit false

namespace StackScript

open Instruction (size)

theorem forall₂_set {α β : Type} {relation : α → β → Prop} {values : List α} {others : List β}
    (h : List.Forall₂ relation values others) (index : Nat) {value : α} {other : β}
    (hvalue : relation value other) :
    List.Forall₂ relation (values.set index value) (others.set index other) := by
  induction h generalizing index with
  | nil => exact .nil
  | cons hone hrest ih =>
    cases index with
    | zero => exact .cons hvalue hrest
    | succ index => exact .cons hone (ih index)

/-- What belongs to a function around is not looked for in the one at work. -/
theorem Eval.read_of_isOuter {activation : Activation} {use : Use}
    (h : use.meaning.isOuter activation.depth) :
    read activation use = readCaptured activation use := by
  obtain ⟨name, meaning⟩ := use
  cases meaning with
  | slot depth slot =>
    have hless : depth < activation.depth := of_decide_eq_true h
    simp only [read, Nat.ne_of_lt hless, if_false]
  | self depth =>
    have hless : depth < activation.depth := of_decide_eq_true h
    simp only [read, Nat.ne_of_lt hless, if_false]
  | global slot => cases h
  | builtin builtin => cases h

namespace Site

variable {site : Site} {world : World} {held : List Value} {ip : Nat} {machine : Machine}

/-- A result waits above the values that waited before. -/
def Leaves (site : Site) (held : List Value) (ip : Nat) (value : Value Function) (world : World)
    (machine : Machine) : Prop :=
  ∃ result, value.Compiled site.plan.constants result ∧
    site.Stands world (held ++ [result]) ip machine

/-! ### Actions -/

namespace Stands

variable {value : Value Function} {result : Value}

/-- A result that finds a place, or none is left. -/
theorem answers_hold (h : site.Stands world held ip machine)
    (hvalue : value.Compiled site.plan.constants result) {height : Nat}
    (hheight : height = site.floor + held.length) :
    site.Answers (Run.push result) machine (Eval.hold height value world)
      fun _ after value world ↦ site.Leaves held ip value world after := by
  unfold Eval.hold
  by_cases hfull : stackSize ≤ height
  · rw [if_pos hfull]
    unfold Answers
    rw [Run.push_of_full (h.sp.symm ▸ hheight ▸ hfull)]
    exact ⟨rfl, h.rest⟩
  · rw [if_neg hfull]
    obtain ⟨after, hpush, hafter⟩ := h.push (by omega) result
    unfold Answers
    rw [hpush]
    exact ⟨result, hvalue, hafter⟩

/-- A result in the place of an operand. -/
theorem answers_push (h : site.Stands world held ip machine)
    (hvalue : value.Compiled site.plan.constants result)
    (hroom : site.floor + held.length < stackSize) :
    site.Answers (Run.push result) machine ((pure value : Eval (Value Function)) world)
      fun _ after value world ↦ site.Leaves held ip value world after := by
  obtain ⟨after, hpush, hafter⟩ := h.push hroom result
  unfold Answers
  rw [hpush]
  exact ⟨result, hvalue, hafter⟩

theorem answers_freshLabel (h : site.Stands world held ip machine) :
    site.Answers Run.freshLabel machine (Eval.freshLabel world) fun label after other world ↦
      label = other ∧ site.Stands world held ip after := by
  refine ⟨congrArg Label.heap h.rest.serial, h.constants, h.frame, h.callers, ?_, h.count, h.cells,
    h.sp⟩
  exact ⟨h.rest.globalsSize, h.rest.globals, h.rest.discarded, congrArg (· + 1) h.rest.serial,
    h.rest.output⟩

theorem answers_print (h : site.Stands world held ip machine) (text : String) :
    site.Answers (Run.print text) machine (Eval.print text world) fun _ after _ world ↦
      site.Stands world held ip after := by
  refine ⟨h.constants, h.frame, h.callers, ?_, h.count, h.cells, h.sp⟩
  exact ⟨h.rest.globalsSize, h.rest.globals, h.rest.discarded, h.rest.serial,
    congrArg (· ++ text) h.rest.output⟩

theorem answers_discard (h : site.Stands world held ip machine)
    (hvalue : value.Compiled site.plan.constants result) :
    site.Answers (Run.setLastPopped result) machine (Eval.discard value world) fun _ after _ world ↦
      site.Stands world held ip after := by
  refine ⟨h.constants, h.frame, h.callers, ?_, h.count, h.cells, h.sp⟩
  exact ⟨h.rest.globalsSize, h.rest.globals, .some hvalue, h.rest.serial, h.rest.output⟩

theorem answers_ofExcept (h : site.Stands world held ip machine) {α β : Type}
    {relation : α → β → Prop} {expected : Except RunError α} {got : Except RunError β}
    (hagree : Agree relation expected got) :
    site.Answers (Run.ofExcept got) machine (Eval.ofExcept expected world)
      fun other after value world ↦ relation value other ∧ site.Stands world held ip after := by
  cases expected with
  | ok value =>
    cases got with
    | ok other => exact ⟨hagree, h⟩
    | error other => exact hagree.elim
  | error error =>
    cases got with
    | ok other => exact hagree.elim
    | error other =>
      subst hagree
      exact ⟨rfl, h.rest⟩

/-! ### Values -/

variable {height : Nat} {opcode : Opcode}

theorem carries_push (h : site.Stands world held ip machine) {opcode : Opcode}
    (hcode : site.Has ip [⟨opcode, []⟩])
    (hperform : Run.perform ⟨opcode, []⟩ = Run.goOn (Run.push result))
    (hvalue : value.Compiled site.plan.constants result)
    (hheight : height = site.floor + held.length) :
    site.Carries machine (Eval.hold height value world)
      (site.Leaves held (ip + Instruction.length ⟨opcode, []⟩)) :=
  h.carries hcode hperform ((h.advance _).answers_hold hvalue hheight)

theorem carries_constant (h : site.Stands world held ip machine) {entry : Nat}
    (hcode : site.Has ip [⟨.constant, [entry]⟩])
    (hentry : site.plan.constants[entry]? = some result)
    (hvalue : value.Compiled site.plan.constants result)
    (hheight : height = site.floor + held.length) :
    site.Carries machine (Eval.hold height value world) (site.Leaves held (ip + 3)) := by
  refine h.carries hcode rfl ?_
  have hread : Run.constant? entry (machine.advance 3) = .ok (some result) (machine.advance 3) := by
    change EStateM.Result.ok machine.constants[entry]? _ = _
    rw [h.constants, hentry]
  exact .of_ok hread ((h.advance 3).answers_hold hvalue hheight)

/-! ### Variables -/

/-- A variable that is read is pushed. -/
theorem answers_load (h : site.Stands world held ip machine) {action : Run Unit}
    {reading : Eval (Value Function)}
    (hread : (∃ value result, reading world = .ok value world ∧
        action machine = Run.push result machine ∧ value.Compiled site.plan.constants result) ∨
      ∃ error, reading world = .error (.failed error) world ∧ action machine = .error error machine)
    (hheight : height = site.floor + held.length) :
    site.Answers action machine ((do Eval.hold height (← reading)) world)
      fun _ after value world ↦ site.Leaves held ip value world after := by
  rcases hread with ⟨value, result, hreading, haction, hvalue⟩ | ⟨error, hreading, haction⟩
  · have hpush := h.answers_hold hvalue hheight
    unfold Answers at hpush ⊢
    rwa [bind_of_ok hreading, haction]
  · unfold Answers
    rw [bind_of_error hreading, haction]
    exact ⟨rfl, h.rest⟩

theorem reads_global (h : site.Stands world held ip machine) {slot : Nat}
    (hslot : slot < globalsSize) :
    (∃ value result, Eval.readGlobal slot world = .ok value world ∧
        Run.loadGlobal slot machine = Run.push result machine ∧
        value.Compiled site.plan.constants result) ∨
      ∃ error, Eval.readGlobal slot world = .error (.failed error) world ∧
        Run.loadGlobal slot machine = .error error machine := by
  obtain ⟨content, hcontent⟩ : ∃ content, machine.globals[slot]? = some content :=
    ⟨_, Array.getElem?_eq_getElem (h.rest.globalsSize ▸ hslot)⟩
  have hread : Run.readGlobal slot machine = .ok content machine := by
    simp only [Run.readGlobal, hcontent]
  have hmatch := h.rest.globals slot
  rw [hcontent, Option.join_some] at hmatch
  unfold Eval.readGlobal Run.loadGlobal
  rw [bind_of_ok hread]
  generalize world.globals slot = expected at hmatch
  cases hmatch with
  | some hvalue => exact .inl ⟨_, _, rfl, rfl, hvalue⟩
  | none => exact .inr ⟨_, rfl, rfl⟩

theorem reads_local (h : site.Stands world held ip machine) (hsound : site.Sound) {slot : Nat}
    (hslot : slot < site.plan.slots) :
    (∃ value result, Eval.readLocal slot world = .ok value world ∧
        Run.loadLocal slot machine = Run.push result machine ∧
        value.Compiled site.plan.constants result) ∨
      ∃ error, Eval.readLocal slot world = .error (.failed error) world ∧
        Run.loadLocal slot machine = .error error machine := by
  obtain ⟨locals, hlocals, hfloor, hshows⟩ := h.shows
  have hbase : machine.frame.base = site.lower.length := by
    rw [h.frame]
    exact hsound.base
  have hlength : slot < locals.length := by
    rw [← hlocals.length_eq, h.count]
    exact hslot
  have hcell : machine.stack[site.lower.length + slot]? = some locals[slot] := by
    rw [hshows.left.getElem? (by simp; omega), List.getElem?_append_right (Nat.le_add_right _ _),
      Nat.add_sub_cancel_left, List.getElem?_eq_getElem hlength]
  have hroom := hshows.left.length_le
  rw [List.length_append] at hroom
  rw [← hbase] at hcell
  have hload := Run.loadLocal_of_getElem? (by omega) hcell
  have hknown : slot < world.locals.length := hlocals.length_eq ▸ hlength
  have hmatch : Option.Rel (Value.Compiled site.plan.constants) world.locals[slot] locals[slot] :=
    (List.forall₂_iff_get.mp hlocals).2 slot hknown hlength
  unfold Eval.readLocal
  rw [hload, List.getElem?_eq_getElem hknown]
  generalize world.locals[slot] = expected at hmatch ⊢
  generalize locals[slot] = content at hmatch ⊢
  cases hmatch with
  | some hvalue => exact .inl ⟨_, _, rfl, rfl, hvalue⟩
  | none => exact .inr ⟨_, rfl, rfl⟩

theorem reads_captured (h : site.Stands world held ip machine) (hsound : site.Sound) {use : Use}
    {index : Nat} (hindex : site.plan.captures[index]? = some use) :
    ∃ value result, Eval.readCaptured site.activation use world = .ok value world ∧
      Run.loadFree index machine = Run.push result machine ∧
      value.Compiled site.plan.constants result := by
  obtain ⟨hlt, rfl⟩ := List.getElem?_eq_some_iff.mp hindex
  have hposition : site.activation.captures.idxOf site.plan.captures[index] = index := by
    rw [hsound.captures]
    exact hsound.nodup.idxOf_getElem index hlt
  have hcaptured : index < site.activation.captured.length := hsound.length ▸ hlt
  have hfree : index < site.frame.free.length := hsound.captured.length_eq ▸ hcaptured
  refine ⟨site.activation.captured[index], site.frame.free[index], ?_, ?_,
    (List.forall₂_iff_get.mp hsound.captured).2 index hcaptured hfree⟩
  · unfold Eval.readCaptured
    rw [hposition, List.getElem?_eq_getElem hcaptured]
    rfl
  · unfold Run.loadFree
    rw [Run.getFrame_bind, h.frame]
    dsimp only
    rw [List.getElem?_eq_getElem hfree]

theorem carries_load (h : site.Stands world held ip machine) (hsound : site.Sound) {use : Use}
    {instruction : Instruction} (hloads : site.plan.Loads use instruction)
    (hcode : site.Has ip [instruction]) (hheight : height = site.floor + held.length) :
    site.Carries machine (Eval.load site.activation height use world)
      (site.Leaves held (ip + instruction.length)) := by
  have hadvanced := h.advance instruction.length
  have hdepth := hsound.depth
  unfold Eval.load
  cases hloads with
  | global name slot =>
    obtain ⟨_, ⟨⟩, hslot⟩ := (hcode.fits _ List.mem_cons_self).eq_single rfl
    exact h.carries hcode rfl (hadvanced.answers_load (hadvanced.reads_global hslot) hheight)
  | builtin name builtin =>
    refine h.carries hcode rfl (hadvanced.answers_load (.inl ⟨.builtin builtin, .builtin builtin,
      rfl, ?_, .builtin builtin⟩) hheight)
    simp only [Run.loadBuiltin, Builtin.ofIndex?_index]
  | slot name hslot =>
    have hread := hadvanced.reads_local hsound hslot
    refine h.carries hcode rfl (hadvanced.answers_load ?_ hheight)
    simpa only [Eval.read, hdepth, if_true] using hread
  | self name hpositive =>
    refine h.carries hcode rfl (hadvanced.answers_load (.inl ⟨site.activation.self,
      site.frame.closure, ?_, ?_, hsound.self hpositive⟩) hheight)
    · simp only [Eval.read, hdepth, if_true]
      rfl
    · rw [Run.getFrame_bind, hadvanced.frame]
      rfl
  | captured houter hindex =>
    obtain ⟨value, result, hread, hload, hvalue⟩ := hadvanced.reads_captured hsound hindex
    refine h.carries hcode rfl (hadvanced.answers_load (.inl ⟨value, result, ?_, hload, hvalue⟩)
      hheight)
    rw [Eval.read_of_isOuter (hdepth ▸ houter), hread]

end Stands

/-- So many results wait above the values that waited before. -/
def LeavesAll (site : Site) (held : List Value) (ip count : Nat) (values : List (Value Function))
    (world : World) (machine : Machine) : Prop :=
  values.length = count ∧ ∃ results, List.Forall₂ (Value.Compiled site.plan.constants) values results ∧
    site.Stands world (held ++ results) ip machine

namespace Stands

variable {height : Nat}

theorem carries_loadAll (h : site.Stands world held ip machine) (hsound : site.Sound)
    {uses : List Use} {loads : List Instruction}
    (hloads : List.Forall₂ site.plan.Loads uses loads) (hcode : site.Has ip loads)
    (hheight : height = site.floor + held.length) :
    site.Carries machine (Eval.loadAll site.activation height uses world)
      (site.LeavesAll held (ip + size loads) uses.length) := by
  induction hloads generalizing world held ip machine height with
  | nil => exact .pure ⟨rfl, [], .nil, by simpa using h⟩
  | @cons use instruction uses loads hone _ ih =>
    unfold Eval.loadAll
    rw [← List.singleton_append] at hcode
    refine (h.carries_load hsound hone hcode.left hheight).bind ?_
    rintro value world after ⟨result, hvalue, hafter⟩
    refine (ih hafter hcode.right (by simp [hheight, Nat.add_assoc])).bind ?_
    rintro values world last ⟨hcount, results, hvalues, hlast⟩
    refine .pure ⟨congrArg (· + 1) hcount, result :: results, .cons hvalue hvalues, ?_⟩
    simpa [Nat.add_assoc] using hlast

/-! ### Operations -/

variable {opcode : Opcode} {first second : Value Function} {left right : Value}

theorem answers_arithmetic (h : site.Stands world (held ++ [left] ++ [right]) ip machine)
    (hfirst : first.Compiled site.plan.constants left)
    (hsecond : second.Compiled site.plan.constants right) :
    site.Answers (Run.arithmetic opcode) machine
      ((do Eval.ofExcept (first.operate (← Eval.freshLabel) opcode second)) world)
      fun _ after value world ↦ site.Leaves held ip value world after := by
  have hroom := h.room
  simp only [List.length_append, List.length_singleton] at hroom
  obtain ⟨middle, hright, hmiddle⟩ := h.pop
  obtain ⟨after, hleft, hafter⟩ := hmiddle.pop
  refine .of_ok hright (.of_ok hleft ?_)
  refine hafter.answers_freshLabel.bind ?_
  rintro label last _ world ⟨rfl, hlast⟩
  have hresult := hlast.answers_ofExcept (hfirst.operate hsecond label opcode)
  rw [← bind_pure (Eval.ofExcept _)]
  refine hresult.bind ?_
  rintro result after value world ⟨hvalue, hstands⟩
  exact hstands.answers_push hvalue (by omega)

theorem answers_comparison (h : site.Stands world (held ++ [left] ++ [right]) ip machine)
    (hfirst : first.Compiled site.plan.constants left)
    (hsecond : second.Compiled site.plan.constants right) :
    site.Answers (Run.comparison opcode) machine
      ((do return Value.boolean (← Eval.ofExcept (first.compare opcode second)) :
        Eval (Value Function)) world)
      fun _ after value world ↦ site.Leaves held ip value world after := by
  have hroom := h.room
  simp only [List.length_append, List.length_singleton] at hroom
  obtain ⟨middle, hright, hmiddle⟩ := h.pop
  obtain ⟨after, hleft, hafter⟩ := hmiddle.pop
  refine .of_ok hright (.of_ok hleft ?_)
  rw [hfirst.compare_eq hsecond]
  have hsame : Agree Eq (left.compare opcode right) (left.compare opcode right) := by
    cases left.compare opcode right <;> exact rfl
  refine (hafter.answers_ofExcept hsame).bind ?_
  rintro result after value world ⟨rfl, hstands⟩
  exact hstands.answers_push (.boolean _) (by omega)

theorem carries_operate (h : site.Stands world (held ++ [left] ++ [right]) ip machine)
    (hcode : site.Has ip [⟨opcode, []⟩])
    (hopcode : opcode ∈ [.add, .sub, .mul, .div, .equal, .notEqual, .greaterThan])
    (hfirst : first.Compiled site.plan.constants left)
    (hsecond : second.Compiled site.plan.constants right) :
    site.Carries machine (Eval.operate opcode first second world)
      (site.Leaves held (ip + Instruction.length ⟨opcode, []⟩)) := by
  have hadvanced := h.advance 1
  simp only [List.mem_cons, List.not_mem_nil, or_false] at hopcode
  rcases hopcode with rfl | rfl | rfl | rfl | rfl | rfl | rfl
  · exact h.carries hcode rfl (hadvanced.answers_arithmetic hfirst hsecond)
  · exact h.carries hcode rfl (hadvanced.answers_arithmetic hfirst hsecond)
  · exact h.carries hcode rfl (hadvanced.answers_arithmetic hfirst hsecond)
  · exact h.carries hcode rfl (hadvanced.answers_arithmetic hfirst hsecond)
  · exact h.carries hcode rfl (hadvanced.answers_comparison hfirst hsecond)
  · exact h.carries hcode rfl (hadvanced.answers_comparison hfirst hsecond)
  · exact h.carries hcode rfl (hadvanced.answers_comparison hfirst hsecond)

theorem carries_operatePrefix (h : site.Stands world (held ++ [right]) ip machine)
    (hcode : site.Has ip [⟨opcode, []⟩]) (hopcode : opcode = .bang ∨ opcode = .minus)
    (hvalue : second.Compiled site.plan.constants right) :
    site.Carries machine (Eval.operatePrefix opcode second world)
      (site.Leaves held (ip + Instruction.length ⟨opcode, []⟩)) := by
  have hroom := h.room
  simp only [List.length_append, List.length_singleton] at hroom
  obtain ⟨after, hpop, hafter⟩ := (h.advance 1).pop
  rcases hopcode with rfl | rfl
  · refine h.carries hcode rfl (.of_ok hpop ?_)
    rw [← hvalue.isTruthy_eq]
    exact hafter.answers_push (.boolean _) (by omega)
  · refine h.carries hcode rfl (.of_ok hpop ?_)
    change site.Answers _ _ (Eval.ofExcept second.negate world) _
    rw [← bind_pure (Eval.ofExcept _)]
    refine (hafter.answers_ofExcept hvalue.negate).bind ?_
    rintro result last value world ⟨hresult, hlast⟩
    exact hlast.answers_push hresult (by omega)

theorem carries_index (h : site.Stands world (held ++ [left] ++ [right]) ip machine)
    (hcode : site.Has ip [⟨.index, []⟩])
    (hfirst : first.Compiled site.plan.constants left)
    (hsecond : second.Compiled site.plan.constants right) :
    site.Carries machine (Eval.ofExcept (first.lookUp second) world)
      (site.Leaves held (ip + 1)) := by
  have hroom := h.room
  simp only [List.length_append, List.length_singleton] at hroom
  obtain ⟨middle, hright, hmiddle⟩ := (h.advance 1).pop
  obtain ⟨after, hleft, hafter⟩ := hmiddle.pop
  refine h.carries hcode rfl (.of_ok hright (.of_ok hleft ?_))
  rw [← bind_pure (Eval.ofExcept _)]
  refine (hafter.answers_ofExcept (hfirst.lookUp hsecond)).bind ?_
  rintro result last value world ⟨hresult, hlast⟩
  exact hlast.answers_push hresult (by omega)

theorem carries_array {values : List (Value Function)} {results : List Value}
    (h : site.Stands world (held ++ results) ip machine)
    (hvalues : List.Forall₂ (Value.Compiled site.plan.constants) values results)
    (hcode : site.Has ip [⟨.array, [values.length]⟩])
    (hheight : height = site.floor + held.length) :
    site.Carries machine ((do Eval.hold height (.array (← Eval.freshLabel) values)) world)
      (site.Leaves held (ip + 3)) := by
  obtain ⟨after, htake, hafter⟩ := (h.advance 3).takeTop hvalues.length_eq
  refine h.carries hcode rfl (.of_ok htake ?_)
  refine hafter.answers_freshLabel.bind ?_
  rintro label last _ world ⟨rfl, hlast⟩
  exact hlast.answers_hold (.array label hvalues) hheight

theorem carries_hash {values : List (Value Function)} {results : List Value} {count : Nat}
    (h : site.Stands world (held ++ results) ip machine)
    (hvalues : List.Forall₂ (Value.Compiled site.plan.constants) values results)
    (hcount : count = values.length) (hcode : site.Has ip [⟨.hash, [count]⟩])
    (hheight : height = site.floor + held.length) :
    site.Carries machine ((do
        let entries ← Eval.ofExcept (Entries.addAll [] values)
        Eval.hold height (.hash (← Eval.freshLabel) entries)) world)
      (site.Leaves held (ip + 3)) := by
  obtain ⟨after, htake, hafter⟩ := (h.advance 3).takeTop (hcount.trans hvalues.length_eq)
  refine h.carries hcode rfl (.of_ok htake ?_)
  have hentries : Entries.Related (Function.Compiled site.plan.constants) [] [] := .nil
  refine (hafter.answers_ofExcept (hentries.addAll hvalues)).bind ?_
  rintro entries middle others world ⟨hrelated, hmiddle⟩
  refine hmiddle.answers_freshLabel.bind ?_
  rintro label last _ world ⟨rfl, hlast⟩
  obtain ⟨hkeys, hheld⟩ := Entries.related_iff.mp hrelated
  exact hlast.answers_hold (.hash label hkeys hheld) hheight

theorem carries_closure {values : List (Value Function)} {results : List Value}
    {function : Function} {routine : Routine} {entry : Nat} {label : Label}
    (h : site.Stands world (held ++ results) ip machine)
    (hvalues : List.Forall₂ (Value.Compiled site.plan.constants) values results)
    {count : Nat} (hcount : count = values.length)
    (hcode : site.Has ip [⟨.closure, [entry, count]⟩])
    (hentry : site.plan.constants[entry]? = some (.routine label routine))
    (hroutine : function.Compiled site.plan.constants routine results.length)
    (hheight : height = site.floor + held.length) :
    site.Carries machine ((do Eval.hold height (.closure (← Eval.freshLabel) function values)) world)
      (site.Leaves held (ip + 4)) := by
  have hadvanced := h.advance 4
  obtain ⟨after, htake, hafter⟩ := hadvanced.takeTop (hcount.trans hvalues.length_eq)
  have hread : Run.constant? entry (machine.advance 4) =
      .ok (some (.routine label routine)) (machine.advance 4) := by
    change EStateM.Result.ok (machine.advance 4).constants[entry]? _ = _
    rw [hadvanced.constants, hentry]
  refine h.carries hcode rfl (.of_ok hread (.of_ok htake ?_))
  refine hafter.answers_freshLabel.bind ?_
  rintro label last _ world ⟨rfl, hlast⟩
  exact hlast.answers_hold (.closure label hroutine hvalues) hheight

/-! ### Statements -/

theorem carries_discard (h : site.Stands world (held ++ [right]) ip machine)
    (hcode : site.Has ip [⟨.pop, []⟩]) (hvalue : second.Compiled site.plan.constants right) :
    site.Carries machine (Eval.discard second world) fun _ world after ↦
      site.Stands world held (ip + 1) after := by
  obtain ⟨after, hpop, hafter⟩ := (h.advance 1).pop
  exact h.carries hcode rfl (.of_ok hpop (hafter.answers_discard hvalue))

theorem write_global (h : site.Stands world held ip machine) {slot : Nat}
    (hslot : slot < globalsSize) (hvalue : second.Compiled site.plan.constants right) :
    ∃ after, Run.writeGlobal slot right machine = .ok () after ∧
      site.Stands { world with
        globals := fun other ↦ if other = slot then some second else world.globals other }
        held ip after := by
  have hsize : slot < machine.globals.size := h.rest.globalsSize ▸ hslot
  refine ⟨_, if_pos hsize, h.constants, h.frame, h.callers, ?_, h.count, h.cells, h.sp⟩
  refine ⟨by simp [h.rest.globalsSize], fun other ↦ ?_, h.rest.discarded, h.rest.serial,
    h.rest.output⟩
  rw [Array.getElem?_setIfInBounds]
  by_cases hother : other = slot
  · subst hother
    simp only [if_true, hsize]
    exact .some hvalue
  · rw [if_neg (Ne.symm hother)]
    simp only [if_neg hother]
    exact h.rest.globals other

theorem store_local (h : site.Stands world (held ++ [right]) ip machine) (hsound : site.Sound)
    {slot : Nat} (hslot : slot < site.plan.slots)
    (hvalue : second.Compiled site.plan.constants right) :
    ∃ after, Run.storeLocal slot machine = .ok () after ∧
      site.Stands { world with locals := world.locals.set slot (some second) } held ip after := by
  obtain ⟨middle, hpop, hmiddle⟩ := h.pop
  obtain ⟨locals, hlocals, hfloor, hshows⟩ := hmiddle.shows
  have hbase : middle.frame.base = site.lower.length := by
    rw [hmiddle.frame]
    exact hsound.base
  have hlength : slot < locals.length := by
    rw [← hlocals.length_eq, hmiddle.count]
    exact hslot
  have hfits : site.lower.length + slot < stackSize := by
    have hroom := hshows.left.length_le
    rw [List.length_append] at hroom
    omega
  have hset := hshows.set (site.lower.length + slot) (some right)
  rw [List.append_assoc, List.set_append_right _ _ (Nat.le_add_right _ _),
    Nat.add_sub_cancel_left, List.set_append_left _ _ hlength, ← List.append_assoc] at hset
  refine ⟨{ middle with
    stack := middle.stack.setIfInBounds (site.lower.length + slot) (some right) }, ?_, ?_⟩
  · unfold Run.storeLocal
    rw [bind_of_ok hpop, Run.getFrame_bind, hbase]
    dsimp only
    rw [check_apply, if_neg (Nat.not_le_of_lt hfits)]
    exact Run.writeSlot_of_shows hshows hfits _
  · refine ⟨hmiddle.constants, hmiddle.frame, hmiddle.callers, ⟨hmiddle.rest.globalsSize,
      hmiddle.rest.globals, hmiddle.rest.discarded, hmiddle.rest.serial, hmiddle.rest.output⟩,
      ?_, ⟨locals.set slot (some right), ?_, hset⟩, hmiddle.sp⟩
    · rw [List.length_set, hmiddle.count]
    · exact forall₂_set hlocals slot (.some hvalue)

theorem carries_write (h : site.Stands world (held ++ [right]) ip machine) (hsound : site.Sound)
    {meaning : Variable} {instruction : Instruction}
    (hstores : site.plan.Stores meaning instruction) (hcode : site.Has ip [instruction])
    (hvalue : second.Compiled site.plan.constants right) :
    site.Carries machine (Eval.write meaning second world) fun _ world after ↦
      site.Stands world held (ip + instruction.length) after := by
  cases hstores with
  | global slot =>
    obtain ⟨_, ⟨⟩, hslot⟩ := (hcode.fits _ List.mem_cons_self).eq_single rfl
    obtain ⟨middle, hpop, hmiddle⟩ := (h.advance 3).pop
    obtain ⟨after, hwrite, hafter⟩ := hmiddle.write_global hslot hvalue
    refine h.carries hcode rfl (.of_ok hpop ?_)
    unfold Answers
    rw [hwrite]
    exact hafter
  | slot hslot =>
    obtain ⟨after, hstore, hafter⟩ := (h.advance 2).store_local hsound hslot hvalue
    refine h.carries hcode rfl ?_
    change site.Answers _ (machine.advance 2) _ _
    unfold Answers
    rw [hstore]
    exact hafter

/-- The value is on its way back from the function. -/
theorem carries_return {α : Type} {done : α → World → Machine → Prop}
    (h : site.Stands world (held ++ [right]) ip machine)
    (hcode : site.Has ip [⟨.returnValue, []⟩])
    (hvalue : second.Compiled site.plan.constants right) :
    site.Carries machine ((throw (.returned second) : Eval α) world) done := by
  obtain ⟨after, hpop, hafter⟩ := (h.advance 1).pop
  refine ⟨0, machine, right, held, ip + 1, after, .here machine, ?_, hvalue, hafter⟩
  rw [h.step hcode]
  exact bind_of_ok hpop

theorem carries_returnNull {α : Type} {done : α → World → Machine → Prop}
    (h : site.Stands world held ip machine) (hcode : site.Has ip [⟨.ret, []⟩]) :
    site.Carries machine ((throw (.returned .null) : Eval α) world) done :=
  ⟨0, machine, .null, held, ip + 1, _, .here machine, h.step hcode, .null, h.advance 1⟩

/-! ### Jumps -/

theorem jump (h : site.Stands world held ip machine) {target : Nat}
    (hcode : site.Has ip [⟨.jump, [target]⟩]) :
    ∃ after, machine.Reaches 1 after ∧ site.Stands world held target after := by
  have hadvanced := h.advance 3
  refine ⟨_, .next (h.step hcode) (.here _), hadvanced.constants, ?_, hadvanced.callers,
    ⟨h.rest.globalsSize, h.rest.globals, h.rest.discarded, h.rest.serial, h.rest.output⟩,
    h.count, h.cells, h.sp⟩
  change { (machine.advance 3).frame with ip := target } = _
  rw [hadvanced.frame]

theorem jumpNotTruthy (h : site.Stands world (held ++ [right]) ip machine) {target : Nat}
    (hcode : site.Has ip [⟨.jumpNotTruthy, [target]⟩]) :
    ∃ after, machine.Reaches 1 after ∧
      site.Stands world held (if right.isTruthy then ip + 3 else target) after := by
  obtain ⟨middle, hpop, hmiddle⟩ := (h.advance 3).pop
  have hstep := h.step hcode
  change _ = (Run.goOn do if !(← Run.pop).isTruthy then Run.setIp target) (machine.advance 3)
    at hstep
  rw [Run.goOn, bind_assoc, bind_of_ok hpop] at hstep
  cases htruthy : right.isTruthy with
  | true =>
    rw [htruthy] at hstep
    exact ⟨middle, .next hstep (.here middle), hmiddle⟩
  | false =>
    rw [htruthy] at hstep
    refine ⟨_, .next hstep (.here _), hmiddle.constants, ?_, hmiddle.callers,
      ⟨hmiddle.rest.globalsSize, hmiddle.rest.globals, hmiddle.rest.discarded,
        hmiddle.rest.serial, hmiddle.rest.output⟩, hmiddle.count, hmiddle.cells, hmiddle.sp⟩
    change { middle.frame with ip := target } = _
    rw [hmiddle.frame]
    rfl

end Stands

end Site

end StackScript
