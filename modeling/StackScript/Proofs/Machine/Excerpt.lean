import StackScript.Proofs.Machine.Control
import StackScript.Proofs.Machine.Halting
import StackScript.Proofs.Program.Depth
import StackScript.Proofs.Program.Shift

/-!
Code that stands inside other code. While the whole code runs through the part, a machine for the
part alone does the same step by step: the jumps of the part are shifted, what the stack holds above
the slots that were used so far does not matter, and functions never see the code that called them
(`Excerpt.Alike.step`). Only the code outside of functions differs, and it counts at most as many
operands as there are at its place.
-/

set_option autoImplicit false
set_option relaxedAutoImplicit false

namespace StackScript

open Instruction (size encodeAll)

/-- Code between other code, with a numbering, and what was printed before it. -/
structure Excerpt where
  before : List Instruction
  code : List Instruction
  after : List Instruction
  depth : Nat → Nat
  printed : String

/-! ### Stacks -/

/-- Both stacks have their full size, and the same slots below the mark. -/
structure SameBelow (mark : Nat) (stack other : Array (Option Value)) : Prop where
  size : stack.size = stackSize
  sizeOther : other.size = stackSize
  slots (slot : Nat) : slot < mark → stack[slot]? = other[slot]?

namespace SameBelow

variable {mark : Nat} {stack other : Array (Option Value)}

/-- A slot that is written in both is the same from then on. -/
theorem set (h : SameBelow mark stack other) {slot more : Nat}
    (hmore : ∀ index < more, index < mark ∨ index = slot) (content : Option Value) :
    SameBelow more (stack.setIfInBounds slot content) (other.setIfInBounds slot content) := by
  refine ⟨by rw [Array.size_setIfInBounds, h.size], by rw [Array.size_setIfInBounds, h.sizeOther],
    fun index hindex ↦ ?_⟩
  rw [Array.getElem?_setIfInBounds, Array.getElem?_setIfInBounds, h.size, h.sizeOther]
  split
  · rfl
  · next hother => exact h.slots index ((hmore index hindex).resolve_right (Ne.symm hother))

end SameBelow

namespace Excerpt

/-! ### Functions at work -/

/-- The code outside of functions, if it is run for itself. -/
def frame (excerpt : Excerpt) (ip : Nat) : Frame where
  label := .program
  routine := ⟨(encodeAll excerpt.code).toArray, 0, 0⟩
  free := []
  ip := ip
  base := 0

def wholeCode (excerpt : Excerpt) : List Instruction :=
  excerpt.before ++ excerpt.code.map (Instruction.shift (size excerpt.before)) ++ excerpt.after

/-- The code outside of functions with the code around it, at the same place. -/
def wholeFrame (excerpt : Excerpt) (ip : Nat) : Frame where
  label := .program
  routine := ⟨(encodeAll excerpt.wholeCode).toArray, 0, 0⟩
  free := []
  ip := size excerpt.before + ip
  base := 0

/-- How far behind its place in the part the function at work is, given those that called it. -/
def offset (excerpt : Excerpt) (callers : Array Frame) : Nat :=
  if callers.isEmpty then size excerpt.before else 0

@[simp] theorem offset_push (excerpt : Excerpt) (callers : Array Frame) (caller : Frame) :
    excerpt.offset (callers.push caller) = 0 := by
  simp [offset, Array.isEmpty]

/-- The functions at work are the same but for the code outside of functions. Their locals are below
the mark. The code outside of functions counts at least `level` operands, and if it waits for a
function, then at least as many as there will be when that function comes back. -/
inductive Frames (excerpt : Excerpt) (mark : Nat) :
    Nat → Array Frame → Frame → Array Frame → Frame → Prop
  | top {level ip : Nat} (hlevel : level ≤ excerpt.depth ip) :
    Frames excerpt mark level #[] (excerpt.wholeFrame ip) #[] (excerpt.frame ip)
  | called {level : Nat} {callers others : Array Frame} {caller other : Frame} (frame : Frame)
    (h : Frames excerpt mark frame.base callers caller others other)
    (hmark : frame.base + frame.routine.locals ≤ mark) :
    Frames excerpt mark level (callers.push caller) frame (others.push other) frame

namespace Frames

variable {excerpt : Excerpt} {mark level : Nat} {callers others : Array Frame} {frame other : Frame}

theorem mono {more : Nat} (h : excerpt.Frames mark level callers frame others other)
    (hmore : mark ≤ more) : excerpt.Frames more level callers frame others other := by
  induction h with
  | top hlevel => exact .top hlevel
  | called frame _ hmark ih => exact .called frame ih (Nat.le_trans hmark hmore)

theorem size_eq (h : excerpt.Frames mark level callers frame others other) :
    callers.size = others.size := by
  induction h with
  | top => rfl
  | called _ _ _ ih => rw [Array.size_push, Array.size_push, ih]

theorem isEmpty_eq (h : excerpt.Frames mark level callers frame others other) :
    callers.isEmpty = others.isEmpty := by
  simp only [Array.isEmpty, h.size_eq]

theorem base_eq (h : excerpt.Frames mark level callers frame others other) :
    frame.base = other.base := by
  cases h <;> rfl

theorem free_eq (h : excerpt.Frames mark level callers frame others other) :
    frame.free = other.free := by
  cases h <;> rfl

theorem locals_le (h : excerpt.Frames mark level callers frame others other) :
    other.base + other.routine.locals ≤ mark := by
  cases h with
  | top => exact Nat.zero_le mark
  | called _ _ hmark => exact hmark

theorem eq_of_called (h : excerpt.Frames mark level callers frame others other)
    (hcalled : others.isEmpty = false) : frame = other := by
  cases h with
  | top => cases hcalled
  | called => rfl

theorem level_le (h : excerpt.Frames mark level callers frame others other)
    (hempty : others.isEmpty) : level ≤ excerpt.depth other.ip := by
  cases h with
  | top hlevel => exact hlevel
  | called =>
    rw [Array.isEmpty_push] at hempty
    cases hempty

/-- The code outside of functions is at the same place in both. -/
theorem ip_eq (h : excerpt.Frames mark level callers frame others other) :
    frame.ip = excerpt.offset others + other.ip := by
  cases h with
  | top => rfl
  | called => rw [offset_push, Nat.zero_add]

/-- The function at work goes on elsewhere. -/
theorem withIp (h : excerpt.Frames mark level callers frame others other) {more ip : Nat}
    (hlevel : others.isEmpty → more ≤ excerpt.depth ip) :
    excerpt.Frames mark more callers { frame with ip := excerpt.offset others + ip } others
      { other with ip := ip } := by
  cases h with
  | top => exact .top (hlevel rfl)
  | called frame h hmark =>
    rw [offset_push, Nat.zero_add]
    exact .called { frame with ip := ip } h hmark

end Frames

/-! ### Machines -/

/-- The machines are the same but for the code outside of functions and what was left behind before
it. -/
structure Agrees (excerpt : Excerpt) (level mark sp : Nat) (whole piece : Machine) : Prop where
  constants : Extends piece.constants whole.constants
  globals : whole.globals = piece.globals
  globalsSize : piece.globals.size = globalsSize
  serial : whole.serial = piece.serial
  output : whole.output = excerpt.printed ++ piece.output
  popped (value : Value) : piece.lastPopped = some value → whole.lastPopped = some value
  wholeSp : whole.sp = sp
  pieceSp : piece.sp = sp
  room : sp ≤ mark
  stack : SameBelow mark whole.stack piece.stack
  frames : excerpt.Frames mark level whole.callers whole.frame piece.callers piece.frame

/-- The machines agree on all slots that were used. -/
def Alike (excerpt : Excerpt) (level sp : Nat) (whole piece : Machine) : Prop :=
  ∃ mark, excerpt.Agrees level mark sp whole piece

/-- What the action does in the whole, it does in the part. It yields the same value, and a number
of operands as the property says. -/
abbrev Leads {α : Type} (excerpt : Excerpt) (level : Nat) (action : Run α) (whole piece : Machine)
    (property : α → Nat → Prop) : Prop :=
  Follows action action whole piece fun yielded after same later ↦ yielded = same ∧
    ∃ sp, property yielded sp ∧ excerpt.Alike level sp after later

variable {excerpt : Excerpt} {level mark sp : Nat} {whole piece : Machine} {α β : Type}
  {property : α → Nat → Prop} {further : β → Nat → Prop}

theorem Leads.bind {action : Run α} {next : α → Run β}
    (h : excerpt.Leads level action whole piece property)
    (hnext : ∀ yielded sp whole piece, property yielded sp → excerpt.Alike level sp whole piece →
      excerpt.Leads level (next yielded) whole piece further) :
    excerpt.Leads level (action >>= next) whole piece further := by
  refine Follows.bind h ?_
  rintro yielded _ _ _ ⟨rfl, sp, hproperty, halike⟩
  exact hnext yielded sp _ _ hproperty halike

theorem Leads.pure {yielded : α} (h : excerpt.Alike level sp whole piece)
    (hproperty : property yielded sp) :
    excerpt.Leads level (Pure.pure yielded) whole piece property :=
  Follows.pure ⟨rfl, sp, hproperty, h⟩

theorem Leads.mono {action : Run α} {looser : α → Nat → Prop}
    (h : excerpt.Leads level action whole piece property)
    (hlooser : ∀ yielded sp, property yielded sp → looser yielded sp) :
    excerpt.Leads level action whole piece looser :=
  Follows.mono h fun yielded _ _ _ ⟨hsame, sp, hproperty, halike⟩ ↦
    ⟨hsame, sp, hlooser yielded sp hproperty, halike⟩

theorem Leads.throw (error : RunError) :
    excerpt.Leads level (MonadExcept.throw error) whole piece property :=
  Follows.throw error

/-! ### Slots -/

open Run

theorem Agrees.setSp (h : excerpt.Agrees level mark sp whole piece) {more : Nat}
    (hroom : more ≤ mark) :
    excerpt.Agrees level mark more { whole with sp := more } { piece with sp := more } :=
  { h with wholeSp := rfl, pieceSp := rfl, room := hroom }

theorem Agrees.follows_getSp (h : excerpt.Agrees level mark sp whole piece) :
    Follows getSp getSp whole piece fun count after same later ↦
      count = sp ∧ same = sp ∧ excerpt.Agrees level mark sp after later := by
  rintro _ _ ⟨⟩
  exact ⟨_, _, rfl, h.wholeSp, h.pieceSp, h⟩

theorem Agrees.follows_readSlot (h : excerpt.Agrees level mark sp whole piece) {slot : Nat}
    (hslot : slot < mark) :
    Follows (readSlot slot) (readSlot slot) whole piece fun content after same later ↦
      content = same ∧ excerpt.Agrees level mark sp after later := by
  intro content after hfirst
  unfold readSlot at hfirst ⊢
  rw [← h.stack.slots slot hslot]
  split at hfirst
  · cases hfirst
    exact ⟨_, _, rfl, rfl, h⟩
  · cases hfirst

theorem Agrees.follows_writeSlot (h : excerpt.Agrees level mark sp whole piece) {slot more : Nat}
    (hmark : mark ≤ more) (hmore : ∀ index < more, index < mark ∨ index = slot)
    (content : Option Value) :
    Follows (writeSlot slot content) (writeSlot slot content) whole piece fun _ after _ later ↦
      excerpt.Agrees level more sp after later := by
  intro _ after hfirst
  unfold writeSlot at hfirst ⊢
  rw [h.stack.size] at hfirst
  rw [h.stack.sizeOther]
  split at hfirst
  · next hroom =>
    cases hfirst
    rw [if_pos hroom]
    exact ⟨_, _, rfl, { h with
      room := Nat.le_trans h.room hmark
      stack := h.stack.set hmore content
      frames := h.frames.mono hmark }⟩
  · cases hfirst

theorem Agrees.follows_clearSlots (h : excerpt.Agrees level mark sp whole piece) {slot : Nat}
    (hslot : slot ≤ mark) (count : Nat) :
    Follows (clearSlots slot count) (clearSlots slot count) whole piece fun _ after _ later ↦
      ∃ more, slot + count ≤ more ∧ excerpt.Agrees level more sp after later := by
  induction count generalizing slot mark whole piece with
  | zero => exact .pure ⟨mark, hslot, h⟩
  | succ count ih =>
    have hwrite := h.follows_writeSlot (Nat.le_max_left mark (slot + 1))
      (fun index hindex ↦ (by omega : index < mark ∨ index = slot)) none
    refine hwrite.bind fun _ _ _ _ hcleared ↦ ?_
    refine (ih hcleared (Nat.le_max_right mark (slot + 1))).mono ?_
    rintro _ _ _ _ ⟨more, hmore, hagrees⟩
    exact ⟨more, by omega, hagrees⟩

theorem Alike.push (h : excerpt.Alike level sp whole piece) (value : Value) :
    excerpt.Leads level (push value) whole piece fun _ more ↦ more = sp + 1 := by
  obtain ⟨mark, h⟩ := h
  refine h.follows_getSp.bind ?_
  rintro _ _ sp _ ⟨rfl, rfl, h⟩
  have hroom := h.room
  have hwrite := h.follows_writeSlot (Nat.le_max_left mark (sp + 1))
    (fun index hindex ↦ (by omega : index < mark ∨ index = sp)) (some value)
  refine .check fun _ ↦ hwrite.bind fun _ _ _ _ h ↦ ?_
  rintro _ _ ⟨⟩
  exact ⟨_, _, rfl, rfl, _, rfl, _, h.setSp (Nat.le_max_right mark (sp + 1))⟩

/-- A value is taken out of a slot that was used. -/
theorem Alike.takeSlot (h : excerpt.Alike level sp whole piece) {slot : Nat} (hslot : slot < sp) :
    excerpt.Leads level (takeSlot slot) whole piece fun _ same ↦ same = sp := by
  obtain ⟨mark, h⟩ := h
  have hmark : slot < mark := Nat.lt_of_lt_of_le hslot h.room
  refine (h.follows_readSlot hmark).bind ?_
  rintro content _ _ _ ⟨rfl, h⟩
  cases content with
  | none => exact .throw _
  | some value =>
    refine (h.follows_writeSlot (Nat.le_refl mark) (fun _ ↦ .inl) none).bind fun _ _ _ _ h ↦ ?_
    exact .pure ⟨rfl, _, rfl, _, h⟩

theorem Alike.lower (h : excerpt.Alike level sp whole piece) {rest : Nat} (hrest : rest ≤ sp) :
    excerpt.Leads level (setSp rest) whole piece fun _ same ↦ same = rest := by
  obtain ⟨mark, h⟩ := h
  rintro _ _ ⟨⟩
  exact ⟨_, _, rfl, rfl, _, rfl, mark, h.setSp (Nat.le_trans hrest h.room)⟩

theorem Alike.pop (h : excerpt.Alike level sp whole piece) :
    excerpt.Leads level pop whole piece fun _ rest ↦ sp = rest + 1 := by
  obtain ⟨mark, h⟩ := h
  refine h.follows_getSp.bind ?_
  rintro _ _ sp _ ⟨rfl, rfl, h⟩
  cases sp with
  | zero => exact .throw _
  | succ top =>
    have halike : excerpt.Alike level (top + 1) _ _ := ⟨mark, h⟩
    refine Leads.bind (halike.takeSlot (Nat.lt_succ_self top)) ?_
    rintro value _ _ _ rfl h
    refine Leads.bind (h.lower (Nat.le_succ top)) ?_
    rintro _ _ _ _ rfl h
    exact .pure h rfl

theorem Alike.takeSlots (h : excerpt.Alike level sp whole piece) {slot count : Nat}
    (hslots : slot + count ≤ sp) (done : List Value) :
    excerpt.Leads level (takeSlots slot done count) whole piece fun _ same ↦ same = sp := by
  induction count generalizing slot done whole piece with
  | zero => exact .pure h rfl
  | succ count ih =>
    refine Leads.bind (h.takeSlot (by omega)) ?_
    rintro value _ _ _ rfl h
    exact ih h (by omega) _

theorem Alike.takeTop (h : excerpt.Alike level sp whole piece) (count : Nat) :
    excerpt.Leads level (takeTop count) whole piece fun _ rest ↦ sp = rest + count := by
  obtain ⟨mark, h⟩ := h
  refine h.follows_getSp.bind ?_
  rintro _ _ sp _ ⟨rfl, rfl, h⟩
  refine .check fun hcount ↦ ?_
  have halike : excerpt.Alike level sp _ _ := ⟨mark, h⟩
  refine Leads.bind (halike.takeSlots (by omega) []) ?_
  rintro values _ _ _ rfl h
  refine Leads.bind (h.lower (Nat.sub_le _ count)) ?_
  rintro _ _ _ _ rfl h
  exact .pure h (by omega)

/-! ### The rest of the state -/

theorem Alike.ofExcept (h : excerpt.Alike level sp whole piece) (result : Except RunError α) :
    excerpt.Leads level (Run.ofExcept result) whole piece fun _ same ↦ same = sp := by
  cases result with
  | ok value => exact .pure h rfl
  | error error => exact .throw error

theorem Alike.freshLabel (h : excerpt.Alike level sp whole piece) :
    excerpt.Leads level freshLabel whole piece fun _ same ↦ same = sp := by
  obtain ⟨mark, h⟩ := h
  rintro _ _ ⟨⟩
  exact ⟨_, _, rfl, congrArg Label.heap h.serial, sp, rfl, mark,
    { h with serial := congrArg (· + 1) h.serial }⟩

theorem Alike.print (h : excerpt.Alike level sp whole piece) (text : String) :
    excerpt.Leads level (print text) whole piece fun _ same ↦ same = sp := by
  obtain ⟨mark, h⟩ := h
  rintro _ _ ⟨⟩
  refine ⟨_, _, rfl, rfl, sp, rfl, mark, { h with output := ?_ }⟩
  dsimp only
  rw [h.output, String.append_assoc]

theorem Alike.setLastPopped (h : excerpt.Alike level sp whole piece) (value : Value) :
    excerpt.Leads level (setLastPopped value) whole piece fun _ same ↦ same = sp := by
  obtain ⟨mark, h⟩ := h
  rintro _ _ ⟨⟩
  exact ⟨_, _, rfl, rfl, sp, rfl, mark, { h with popped := fun _ ↦ id }⟩

/-- Only constants that the part has are looked up. -/
theorem Alike.constant? (h : excerpt.Alike level sp whole piece) {entry : Nat} {constant : Value}
    (hentry : piece.constants[entry]? = some constant) :
    excerpt.Leads level (constant? entry) whole piece fun found same ↦
      found = some constant ∧ same = sp := by
  obtain ⟨mark, h⟩ := h
  have hwhole := h.constants entry constant hentry
  rintro _ _ ⟨⟩
  exact ⟨_, _, rfl, hwhole.trans hentry.symm, sp, ⟨hwhole, rfl⟩, mark, h⟩

theorem Alike.readGlobal (h : excerpt.Alike level sp whole piece) (index : Nat) :
    excerpt.Leads level (readGlobal index) whole piece fun _ same ↦ same = sp := by
  obtain ⟨mark, h⟩ := h
  intro content after hfirst
  unfold Run.readGlobal at hfirst ⊢
  rw [h.globals] at hfirst
  split at hfirst
  · cases hfirst
    exact ⟨_, _, rfl, rfl, sp, rfl, mark, h⟩
  · cases hfirst

theorem Alike.writeGlobal (h : excerpt.Alike level sp whole piece) (index : Nat) (value : Value) :
    excerpt.Leads level (writeGlobal index value) whole piece fun _ same ↦ same = sp := by
  obtain ⟨mark, h⟩ := h
  intro _ after hfirst
  unfold Run.writeGlobal at hfirst ⊢
  rw [h.globals] at hfirst
  split at hfirst
  · next hindex =>
    cases hfirst
    rw [if_pos hindex]
    exact ⟨_, _, rfl, rfl, sp, rfl, mark, { h with
      globals := rfl, globalsSize := Array.size_setIfInBounds.trans h.globalsSize }⟩
  · cases hfirst

/-! ### Operations -/

theorem Alike.arithmetic (h : excerpt.Alike level sp whole piece) (op : Opcode) :
    excerpt.Leads level (arithmetic op) whole piece fun _ more ↦
      ∃ rest, sp = rest + 2 ∧ more = rest + 1 := by
  refine Leads.bind h.pop fun right rest _ _ hright h ↦ ?_
  refine Leads.bind h.pop fun left last _ _ hleft h ↦ ?_
  refine Leads.bind h.freshLabel ?_
  rintro label _ _ _ rfl h
  refine Leads.bind (h.ofExcept _) ?_
  rintro value _ _ _ rfl h
  exact (h.push value).mono fun _ _ hmore ↦ ⟨_, by omega, hmore⟩

theorem Alike.comparison (h : excerpt.Alike level sp whole piece) (op : Opcode) :
    excerpt.Leads level (comparison op) whole piece fun _ more ↦
      ∃ rest, sp = rest + 2 ∧ more = rest + 1 := by
  refine Leads.bind h.pop fun right rest _ _ hright h ↦ ?_
  refine Leads.bind h.pop fun left last _ _ hleft h ↦ ?_
  refine Leads.bind (h.ofExcept _) ?_
  rintro value _ _ _ rfl h
  exact (h.push _).mono fun _ _ hmore ↦ ⟨_, by omega, hmore⟩

theorem Alike.negate (h : excerpt.Alike level sp whole piece) :
    excerpt.Leads level (do Run.push (← Run.ofExcept (← Run.pop).negate)) whole piece fun _ more ↦
      ∃ rest, sp = rest + 1 ∧ more = rest + 1 := by
  refine Leads.bind h.pop fun value rest _ _ hvalue h ↦ Leads.bind (h.ofExcept _) ?_
  rintro result _ _ _ rfl h
  exact (h.push result).mono fun _ _ hmore ↦ ⟨_, hvalue, hmore⟩

theorem Alike.index (h : excerpt.Alike level sp whole piece) :
    excerpt.Leads level index whole piece fun _ more ↦
      ∃ rest, sp = rest + 2 ∧ more = rest + 1 := by
  refine Leads.bind h.pop fun position rest _ _ hposition h ↦ ?_
  refine Leads.bind h.pop fun collection last _ _ hcollection h ↦ Leads.bind (h.ofExcept _) ?_
  rintro value _ _ _ rfl h
  exact (h.push value).mono fun _ _ hmore ↦ ⟨_, by omega, hmore⟩

theorem Alike.loadConstant (h : excerpt.Alike level sp whole piece) {entry : Nat} {constant : Value}
    (hentry : piece.constants[entry]? = some constant) :
    excerpt.Leads level (loadConstant entry) whole piece fun _ more ↦ more = sp + 1 := by
  refine Leads.bind (h.constant? hentry) ?_
  rintro _ _ _ _ ⟨rfl, rfl⟩ h
  exact h.push constant

theorem Alike.loadGlobal (h : excerpt.Alike level sp whole piece) (index : Nat) :
    excerpt.Leads level (loadGlobal index) whole piece fun _ more ↦ more = sp + 1 := by
  refine Leads.bind (h.readGlobal index) ?_
  rintro (_ | value) _ _ _ rfl h
  · exact .throw _
  · exact h.push value

theorem Alike.loadBuiltin (h : excerpt.Alike level sp whole piece) (index : Nat) :
    excerpt.Leads level (loadBuiltin index) whole piece fun _ more ↦ more = sp + 1 := by
  unfold Run.loadBuiltin
  cases Builtin.ofIndex? index with
  | none => exact .throw _
  | some builtin => exact h.push (.builtin builtin)

theorem Alike.makeArray (h : excerpt.Alike level sp whole piece) (count : Nat) :
    excerpt.Leads level (makeArray count) whole piece fun _ more ↦
      ∃ rest, sp = rest + count ∧ more = rest + 1 := by
  refine Leads.bind (h.takeTop count) fun elements rest _ _ helements h ↦ Leads.bind h.freshLabel ?_
  rintro label _ _ _ rfl h
  exact (h.push _).mono fun _ _ hmore ↦ ⟨_, helements, hmore⟩

theorem Alike.makeHash (h : excerpt.Alike level sp whole piece) (count : Nat) :
    excerpt.Leads level (makeHash count) whole piece fun _ more ↦
      ∃ rest, sp = rest + count ∧ more = rest + 1 := by
  refine Leads.bind (h.takeTop count) fun items rest _ _ hitems h ↦ Leads.bind (h.ofExcept _) ?_
  rintro entries _ _ _ rfl h
  refine Leads.bind h.freshLabel ?_
  rintro label _ _ _ rfl h
  exact (h.push _).mono fun _ _ hmore ↦ ⟨_, hitems, hmore⟩

theorem Alike.makeClosure (h : excerpt.Alike level sp whole piece) {entry : Nat} {constant : Value}
    (hentry : piece.constants[entry]? = some constant) (count : Nat) :
    excerpt.Leads level (makeClosure entry count) whole piece fun _ more ↦
      ∃ rest, sp = rest + count ∧ more = rest + 1 := by
  refine Leads.bind (h.constant? hentry) ?_
  rintro _ _ _ _ ⟨rfl, rfl⟩ h
  cases constant with
  | routine =>
    refine Leads.bind (h.takeTop count) fun free rest _ _ hfree h ↦ Leads.bind h.freshLabel ?_
    rintro label _ _ _ rfl h
    exact (h.push _).mono fun _ _ hmore ↦ ⟨_, hfree, hmore⟩
  | _ => exact .throw _

theorem Alike.callBuiltin (h : excerpt.Alike level sp whole piece) (builtin : Builtin)
    (count : Nat) :
    excerpt.Leads level (callBuiltin builtin count) whole piece fun _ more ↦
      ∃ rest, sp = rest + (count + 1) ∧ more = rest + 1 := by
  refine Leads.bind (h.takeTop count) fun arguments rest _ _ harguments h ↦ ?_
  refine Leads.bind (h.print _) ?_
  rintro _ _ _ _ rfl h
  refine Leads.bind h.freshLabel ?_
  rintro label _ _ _ rfl ⟨mark, h⟩
  refine h.follows_getSp.bind ?_
  rintro _ _ rest _ ⟨rfl, rfl, h⟩
  cases rest with
  | zero => exact .throw _
  | succ callee =>
    have halike : excerpt.Alike level (callee + 1) _ _ := ⟨mark, h⟩
    refine Leads.bind (halike.lower (Nat.le_succ callee)) ?_
    rintro _ _ _ _ rfl h
    exact (h.push _).mono fun _ _ hmore ↦ ⟨_, by omega, hmore⟩

/-! ### The function at work -/

theorem Agrees.follows_getFrame (h : excerpt.Agrees level mark sp whole piece) :
    Follows getFrame getFrame whole piece fun frame after same later ↦
      frame.base = same.base ∧ frame.free = same.free ∧
        (frame = whole.frame ∧ same = piece.frame) ∧
        excerpt.Agrees level mark sp after later := by
  rintro _ _ ⟨⟩
  exact ⟨_, _, rfl, h.frames.base_eq, h.frames.free_eq, ⟨rfl, rfl⟩, h⟩

/-- The base of the function at work is the same, and its locals are below the mark. -/
theorem Alike.loadLocal (h : excerpt.Alike level sp whole piece) {index : Nat}
    (hindex : index < piece.frame.routine.locals) :
    excerpt.Leads level (loadLocal index) whole piece fun _ more ↦ more = sp + 1 := by
  obtain ⟨mark, h⟩ := h
  have hmark : piece.frame.base + index < mark := by
    have hlocals := h.frames.locals_le
    omega
  refine h.follows_getFrame.bind ?_
  rintro _ _ _ _ ⟨hbase, _, ⟨rfl, rfl⟩, h⟩
  rw [hbase]
  refine .check fun _ ↦ (h.follows_readSlot hmark).bind ?_
  rintro (_ | value) _ _ _ ⟨rfl, h⟩
  · exact .throw _
  · exact Alike.push ⟨mark, h⟩ value

theorem Alike.storeLocal (h : excerpt.Alike level sp whole piece) (index : Nat) :
    excerpt.Leads level (storeLocal index) whole piece fun _ rest ↦ sp = rest + 1 := by
  refine Leads.bind h.pop ?_
  rintro value rest _ _ hrest ⟨mark, h⟩
  refine h.follows_getFrame.bind ?_
  rintro frame _ same _ ⟨hbase, _, _, h⟩
  rw [hbase]
  refine .check fun _ ↦ ?_
  refine (h.follows_writeSlot (Nat.le_refl mark) (fun _ ↦ .inl) (some value)).mono ?_
  exact fun _ _ _ _ h ↦ ⟨rfl, rest, hrest, mark, h⟩

theorem Alike.loadFree (h : excerpt.Alike level sp whole piece) (index : Nat) :
    excerpt.Leads level (loadFree index) whole piece fun _ more ↦ more = sp + 1 := by
  obtain ⟨mark, h⟩ := h
  refine h.follows_getFrame.bind ?_
  rintro frame _ same _ ⟨_, hfree, _, h⟩
  rw [hfree]
  cases same.free[index]? with
  | none => exact .throw _
  | some value => exact Alike.push ⟨mark, h⟩ value

/-- Only functions ask for their own closure. -/
theorem Alike.currentClosure (h : excerpt.Alike level sp whole piece)
    (hcalled : piece.callers.isEmpty = false) :
    excerpt.Leads level (do Run.push (← getFrame).closure) whole piece fun _ more ↦
      more = sp + 1 := by
  obtain ⟨mark, h⟩ := h
  have hframe := h.frames.eq_of_called hcalled
  refine h.follows_getFrame.bind ?_
  rintro _ _ _ _ ⟨_, _, ⟨rfl, rfl⟩, h⟩
  rw [hframe]
  exact Alike.push ⟨mark, h⟩ _

/-! ### Instructions -/

theorem Leads.goOn {action : Run Unit} {property : Nat → Prop}
    (h : excerpt.Leads level action whole piece fun _ ↦ property) :
    excerpt.Leads level (goOn action) whole piece fun progress sp ↦
      progress = .running ∧ property sp :=
  Leads.bind h fun _ _ _ _ hproperty h ↦ .pure h ⟨rfl, hproperty⟩

/-- An instruction that is no call and leads to the next one. -/
theorem Alike.perform (h : excerpt.Alike level sp whole piece) {instruction : Instruction}
    {limits : Limits} (hfits : instruction.Fits) (hvalid : instruction.Valid piece.constants limits)
    (hlocals : limits.locals = piece.frame.routine.locals)
    (hcalled : limits.inFunction = !piece.callers.isEmpty) (hleads : instruction.leadsOn)
    (htarget : instruction.target? = none) (hcall : instruction.opcode ≠ .call) :
    excerpt.Leads level (perform instruction) whole piece fun progress more ↦
      progress = .running ∧ ∃ rest, sp = rest + instruction.takes ∧
        more = rest + instruction.leaves := by
  have hpushed : ∀ {action : Run Unit},
      excerpt.Leads level action whole piece (fun _ more ↦ more = sp + 1) →
      excerpt.Leads level (Run.goOn action) whole piece fun progress more ↦
        progress = .running ∧ ∃ rest, sp = rest + 0 ∧ more = rest + 1 :=
    fun haction ↦ (haction.mono fun _ _ hmore ↦ ⟨sp, rfl, hmore⟩).goOn
  have hpopped : ∀ {action : Run Unit},
      excerpt.Leads level action whole piece (fun _ rest ↦ sp = rest + 1) →
      excerpt.Leads level (Run.goOn action) whole piece fun progress more ↦
        progress = .running ∧ ∃ rest, sp = rest + 1 ∧ more = rest + 0 :=
    fun haction ↦ (haction.mono fun _ rest hrest ↦ ⟨rest, hrest, rfl⟩).goOn
  obtain ⟨opcode, operands⟩ := instruction
  cases opcode
  case constant =>
    obtain ⟨entry, rfl, _⟩ := hfits.eq_single rfl
    obtain ⟨constant, hentry, _⟩ := hvalid
    exact hpushed (h.loadConstant hentry)
  case closure =>
    obtain ⟨entry, taken, rfl, _⟩ := hfits.eq_pair rfl
    obtain ⟨label, routine, hentry, _⟩ := hvalid
    exact (h.makeClosure hentry taken).goOn
  case setGlobal =>
    obtain ⟨index, rfl, _⟩ := hfits.eq_single rfl
    refine hpopped (Leads.bind h.pop fun value rest _ _ hrest h ↦ ?_)
    exact (h.writeGlobal index value).mono fun _ _ hsame ↦ hsame ▸ hrest
  case getGlobal =>
    obtain ⟨index, rfl, _⟩ := hfits.eq_single rfl
    exact hpushed (h.loadGlobal index)
  case setLocal =>
    obtain ⟨index, rfl, _⟩ := hfits.eq_single rfl
    exact hpopped (h.storeLocal index)
  case getLocal =>
    obtain ⟨index, rfl, _⟩ := hfits.eq_single rfl
    exact hpushed (h.loadLocal (hlocals ▸ hvalid))
  case getFree =>
    obtain ⟨index, rfl, _⟩ := hfits.eq_single rfl
    exact hpushed (h.loadFree index)
  case getBuiltin =>
    obtain ⟨index, rfl, _⟩ := hfits.eq_single rfl
    exact hpushed (h.loadBuiltin index)
  case array =>
    obtain ⟨taken, rfl, _⟩ := hfits.eq_single rfl
    exact (h.makeArray taken).goOn
  case hash =>
    obtain ⟨taken, rfl, _⟩ := hfits.eq_single rfl
    exact (h.makeHash taken).goOn
  case jump | jumpNotTruthy =>
    obtain ⟨target, rfl, _⟩ := hfits.eq_single rfl
    cases htarget
  case call => exact absurd rfl hcall
  case returnValue | ret => cases hleads
  all_goals
    obtain rfl := hfits.eq_nil rfl
  case add | sub | mul | div => exact (h.arithmetic _).goOn
  case equal | notEqual | greaterThan => exact (h.comparison _).goOn
  case bang =>
    refine (Leads.bind h.pop fun value rest _ _ hrest h ↦ ?_).goOn
    exact (h.push _).mono fun _ _ hmore ↦ ⟨rest, hrest, hmore⟩
  case minus => exact h.negate.goOn
  case true | false => exact hpushed (h.push (.boolean _))
  case null => exact hpushed (h.push .null)
  case pop =>
    refine hpopped (Leads.bind h.pop fun value rest _ _ hrest h ↦ ?_)
    exact (h.setLastPopped value).mono fun _ _ hsame ↦ hsame ▸ hrest
  case index => exact h.index.goOn
  case currentClosure =>
    have hnested : piece.callers.isEmpty = false := by
      cases hempty : piece.callers.isEmpty with
      | false => rfl
      | true =>
        rw [hempty] at hcalled
        have hinside : limits.inFunction = true := hvalid
        rw [hinside] at hcalled
        cases hcalled
    exact hpushed (h.currentClosure hnested)

/-! ### Calls and returns -/

/-- After the actions, both are between two instructions again. -/
abbrev Lands (excerpt : Excerpt) (first second : Run Unit) (whole piece : Machine) : Prop :=
  Follows first second whole piece fun _ after _ later ↦ ∃ sp, excerpt.Alike sp sp after later

/-- A step in the whole is one in the part. Only an instruction that returns ends both. -/
def Steps (excerpt : Excerpt) (first second : Run Progress) (whole piece : Machine) : Prop :=
  Follows first second whole piece fun progress after same later ↦ progress = same ∧
    match progress with
    | .running => ∃ sp, excerpt.Alike sp sp after later
    | .finished => (∃ level sp, excerpt.Alike level sp after later) ∧
      ∃ instruction ∈ excerpt.code, instruction.leadsOn = false ∧ instruction.target? = none

theorem Lands.goOn {first second : Run Unit} (h : excerpt.Lands first second whole piece) :
    excerpt.Steps (goOn first) (goOn second) whole piece :=
  Follows.bind h fun _ _ _ _ halike ↦ .pure ⟨rfl, halike⟩

theorem Leads.lands {action : Run Unit}
    (h : excerpt.Leads level action whole piece fun _ sp ↦ sp = level) :
    excerpt.Lands action action whole piece := by
  refine Follows.mono h ?_
  rintro _ _ _ _ ⟨_, sp, rfl, halike⟩
  exact ⟨sp, halike⟩

/-- The caller counts on as many operands as there are when the function comes back. -/
theorem Alike.callClosure (h : excerpt.Alike level sp whole piece) (label : Label)
    (routine : Routine) (free : List Value) {count : Nat} (hlevel : level = sp - count) :
    excerpt.Lands (callClosure label routine free count) (callClosure label routine free count)
      whole piece := by
  obtain ⟨mark, h⟩ := h
  intro _ after hfirst
  rw [callClosure_eq] at hfirst ⊢
  rw [h.wholeSp, h.frames.size_eq] at hfirst
  rw [h.pieceSp]
  by_cases hcount : count = routine.parameters
  swap
  · rw [if_pos hcount] at hfirst
    cases hfirst
  by_cases hdepth : frameLimit ≤ piece.callers.size + 1
  · rw [if_neg (not_not_intro hcount), if_pos hdepth] at hfirst
    cases hfirst
  by_cases hsp : sp < count
  · rw [if_neg (not_not_intro hcount), if_neg hdepth, if_pos hsp] at hfirst
    cases hfirst
  by_cases hroom : stackSize < sp - count + max routine.locals count
  · rw [if_neg (not_not_intro hcount), if_neg hdepth, if_neg hsp, if_pos hroom] at hfirst
    cases hfirst
  rw [if_neg (not_not_intro hcount), if_neg hdepth, if_neg hsp, if_neg hroom] at hfirst ⊢
  cases hclear : clearSlots sp (max routine.locals count - count) whole with
  | error error cleared =>
    rw [hclear] at hfirst
    cases hfirst
  | ok _ cleared =>
    rw [hclear] at hfirst
    cases hfirst
    obtain ⟨_, other, hother, more, hmore, hagrees⟩ :=
      h.follows_clearSlots h.room (max routine.locals count - count) _ _ hclear
    rw [hother]
    refine ⟨_, _, rfl, sp - count + max routine.locals count, more, { hagrees with
      wholeSp := rfl, pieceSp := rfl, room := ?_, frames := .called _ (hlevel ▸ hagrees.frames) ?_ }⟩
    · omega
    · dsimp only
      omega

/-- A function that comes back leaves as many operands as its caller counted on. -/
theorem Alike.returnFromCall (h : excerpt.Alike level sp whole piece) (value : Value) :
    excerpt.Lands (returnFromCall value) (returnFromCall value) whole piece := by
  obtain ⟨mark, h⟩ := h
  intro _ after hfirst
  have hframes := h.frames
  rw [returnFromCall_eq] at hfirst ⊢
  generalize hwhole : whole.callers = callers at hframes hfirst
  generalize hpiece : piece.callers = others at hframes ⊢
  generalize hframe : whole.frame = frame at hframes hfirst
  generalize hother : piece.frame = other at hframes ⊢
  cases hframes with
  | top => cases hfirst
  | @called _ callers others caller other frame hrests hmark =>
    rw [Array.back?_push] at hfirst ⊢
    dsimp only at hfirst ⊢
    rw [Array.pop_push] at hfirst ⊢
    cases hbase : frame.base with
    | zero =>
      rw [hbase] at hfirst
      cases hfirst
    | succ callee =>
      rw [hbase] at hfirst hrests hmark
      have hback : excerpt.Alike (callee + 1) callee
          { whole with callers := callers, frame := caller, sp := callee }
          { piece with callers := others, frame := other, sp := callee } :=
        ⟨mark, { h with wholeSp := rfl, pieceSp := rfl, room := by omega, frames := hrests }⟩
      obtain ⟨_, later, hlater, _, more, rfl, halike⟩ := hback.push value _ _ hfirst
      exact ⟨_, later, hlater, _, halike⟩

/-- A call with the callee and the arguments among the operands. -/
theorem Alike.call (h : excerpt.Alike level sp whole piece) {count : Nat}
    (hlevel : level = sp - (count + 1) + 1) :
    excerpt.Lands (call count) (call count) whole piece := by
  obtain ⟨mark, h⟩ := h
  refine h.follows_getSp.bind ?_
  rintro _ _ sp _ ⟨rfl, rfl, h⟩
  refine .check fun hcount ↦ ?_
  have hmark : sp - (count + 1) < mark := by
    have hroom := h.room
    omega
  refine (h.follows_readSlot hmark).bind ?_
  rintro content after _ later ⟨rfl, h⟩
  have halike : excerpt.Alike level sp after later := ⟨mark, h⟩
  cases content with
  | none => exact .throw _
  | some callee =>
    cases callee with
    | closure label routine free => exact halike.callClosure label routine free (by omega)
    | builtin builtin =>
      exact ((halike.callBuiltin builtin count).mono fun _ more hmore ↦ by omega).lands
    | _ => exact .throw _

/-- Outside of functions, a return ends the program. -/
theorem Alike.returnWith (h : excerpt.Alike level sp whole piece) (value : Value)
    (hreturns : piece.callers.isEmpty → ∃ instruction ∈ excerpt.code,
      instruction.leadsOn = false ∧ instruction.target? = none) :
    excerpt.Steps (returnWith value) (returnWith value) whole piece := by
  obtain ⟨mark, h⟩ := h
  have htop : Follows atTopLevel atTopLevel whole piece fun top after same later ↦
      top = piece.callers.isEmpty ∧ same = top ∧ excerpt.Alike level sp after later := by
    rintro _ _ ⟨⟩
    exact ⟨_, _, rfl, h.frames.isEmpty_eq, h.frames.isEmpty_eq.symm, mark, h⟩
  refine htop.bind ?_
  rintro top after _ later ⟨rfl, rfl, h⟩
  cases hempty : piece.callers.isEmpty with
  | false => exact (h.returnFromCall value).goOn
  | true =>
    have hfinish : excerpt.Leads level (finish value) after later fun _ _ ↦ True := by
      refine Leads.bind (h.lower (Nat.zero_le sp)) fun _ _ _ _ _ h ↦ ?_
      exact (h.setLastPopped value).mono fun _ _ _ ↦ trivial
    refine Follows.bind hfinish ?_
    rintro _ _ _ _ ⟨_, sp, _, h⟩
    exact .pure ⟨rfl, ⟨level, sp, h⟩, hreturns hempty⟩

end Excerpt

end StackScript
