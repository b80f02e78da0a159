import StackScript.Proofs.Value.Relabelling
import StackScript.Proofs.Value.Sound

/-!
Code and values under other numbers. The entries of the pool and the slots of globals are given out
one after the other; where some were used up in vain, all that come later have higher numbers. What
these numbers are shows in the operands of instructions and in the labels of literals, and nowhere
else: values that differ in this alone are taken alike by all operations, the provided functions
among them, and are shown alike (`Value.Renumbered.inspect_eq`).
-/

set_option autoImplicit false
set_option relaxedAutoImplicit false

open Function (Injective)

namespace StackScript

open Instruction (encodeAll size)

/-! ### Numbers -/

/-- Numbers that were used up: `count` of them, from `first` on. -/
structure Gap where
  first : Nat
  count : Nat

namespace Gap

variable {gap : Gap} {number other : Nat}

/-- The number that is given out in the place of this one. -/
def skip (gap : Gap) (number : Nat) : Nat :=
  if number < gap.first then number else number + gap.count

theorem skip_of_lt (h : number < gap.first) : gap.skip number = number :=
  if_pos h

theorem skip_of_le (h : gap.first ≤ number) : gap.skip number = number + gap.count :=
  if_neg (Nat.not_lt_of_le h)

theorem le_skip (gap : Gap) (number : Nat) : number ≤ gap.skip number := by
  unfold skip
  split <;> omega

theorem skip_injective (gap : Gap) : Injective gap.skip := by
  intro number other h
  unfold skip at h
  split at h <;> split at h <;> omega

end Gap

/-- The entries of the pool and the slots of globals that were used up. -/
structure Gaps where
  entries : Gap
  slots : Gap

/-- The labels of literals are their entries. -/
def Gaps.label (gaps : Gaps) : Label → Label
  | .literal entry => .literal (gaps.entries.skip entry)
  | other => other

theorem Gaps.label_injective (gaps : Gaps) : Injective gaps.label := by
  intro first second h
  cases first <;> cases second <;> simp_all [label, gaps.entries.skip_injective.eq_iff]

variable {gaps : Gaps}

/-! ### Code -/

namespace Instruction

/-- The same instruction for the entry or the slot under its other number. -/
def renumber (gaps : Gaps) : Instruction → Instruction
  | ⟨.constant, [entry]⟩ => ⟨.constant, [gaps.entries.skip entry]⟩
  | ⟨.closure, [entry, count]⟩ => ⟨.closure, [gaps.entries.skip entry, count]⟩
  | ⟨.getGlobal, [slot]⟩ => ⟨.getGlobal, [gaps.slots.skip slot]⟩
  | ⟨.setGlobal, [slot]⟩ => ⟨.setGlobal, [gaps.slots.skip slot]⟩
  | other => other

variable {instruction : Instruction} {constants : Array Value} {limits : Limits}

@[simp] theorem opcode_renumber (instruction : Instruction) :
    (instruction.renumber gaps).opcode = instruction.opcode := by
  unfold renumber
  split <;> rfl

@[simp] theorem length_renumber (instruction : Instruction) :
    (instruction.renumber gaps).length = instruction.length := by
  rw [length, opcode_renumber, length]

@[simp] theorem size_map_renumber (code : List Instruction) :
    size (code.map (renumber gaps)) = size code := by
  induction code with
  | nil => rfl
  | cons instruction rest ih => rw [List.map_cons, size_cons, size_cons, length_renumber, ih]

/-- Numbers that fit behind the gaps fit before them. -/
theorem Fits.of_renumber (h : (instruction.renumber gaps).Fits) : instruction.Fits := by
  have hentry := gaps.entries.le_skip
  have hslot := gaps.slots.le_skip
  unfold renumber at h
  split at h
  · next entry =>
    obtain ⟨_, ⟨⟩, hsmall⟩ := h.eq_single rfl
    exact .cons (Nat.lt_of_le_of_lt (hentry entry) hsmall) .nil
  · next entry count =>
    obtain ⟨_, _, ⟨⟩, hsmall, hcount⟩ := h.eq_pair rfl
    exact .cons (Nat.lt_of_le_of_lt (hentry entry) hsmall) (.cons hcount .nil)
  · next slot =>
    obtain ⟨_, ⟨⟩, hsmall⟩ := h.eq_single rfl
    exact .cons (Nat.lt_of_le_of_lt (hslot slot) hsmall) .nil
  · next slot =>
    obtain ⟨_, ⟨⟩, hsmall⟩ := h.eq_single rfl
    exact .cons (Nat.lt_of_le_of_lt (hslot slot) hsmall) .nil
  · exact h

/-- Numbers before the gaps are kept. -/
theorem renumber_of_valid (h : instruction.Valid constants limits)
    (hentries : constants.size ≤ gaps.entries.first) (hslots : limits.globals ≤ gaps.slots.first) :
    instruction.renumber gaps = instruction := by
  have hentry : ∀ {entry : Nat} {constant : Value}, constants[entry]? = some constant →
      gaps.entries.skip entry = entry := by
    intro entry constant hfound
    exact Gap.skip_of_lt (Nat.lt_of_lt_of_le (Array.getElem?_eq_some_iff.mp hfound).1 hentries)
  have hslot : ∀ {slot : Nat}, slot < limits.globals → gaps.slots.skip slot = slot :=
    fun hgiven ↦ Gap.skip_of_lt (Nat.lt_of_lt_of_le hgiven hslots)
  unfold renumber
  split
  · obtain ⟨_, hfound, _⟩ := h
    rw [hentry hfound]
  · obtain ⟨_, _, hfound, _⟩ := h
    rw [hentry hfound]
  · rw [hslot h]
  · rw [hslot h]
  · rfl

end Instruction

/-- The same body with its code under other numbers, all of which fit. -/
structure Routine.Renumbered (gaps : Gaps) (routine other : Routine) : Prop where
  locals : other.locals = routine.locals
  parameters : other.parameters = routine.parameters
  code : ∃ code : List Instruction, routine.code.toList = encodeAll code ∧
    other.code.toList = encodeAll (code.map (.renumber gaps)) ∧
    ∀ instruction ∈ code, (instruction.renumber gaps).Fits

/-- A body whose numbers are all before the gaps. -/
theorem Routine.WellFormed.renumbered {constants : Array Value} {globals free : Nat}
    {routine : Routine} (h : routine.WellFormed constants globals free)
    (hentries : constants.size ≤ gaps.entries.first) (hslots : globals ≤ gaps.slots.first) :
    routine.Renumbered gaps routine := by
  obtain ⟨code, hcode, hwell⟩ := h
  have hkept : ∀ instruction ∈ code, instruction.renumber gaps = instruction :=
    fun instruction hmem ↦
    Instruction.renumber_of_valid (hwell.valid instruction hmem) hentries hslots
  have hsame : code.map (.renumber gaps) = code := by
    rw [List.map_congr_left hkept, List.map_id']
  refine ⟨rfl, rfl, code, hcode, by rw [hsame, hcode], fun instruction hmem ↦ ?_⟩
  rw [hkept instruction hmem]
  exact hwell.fits instruction hmem

/-! ### Values -/

namespace Value

/-- The same value under other numbers: the labels of its literals and the code of its functions
may differ. -/
def Renumbered (gaps : Gaps) (value other : Value) : Prop :=
  (value.relabel gaps.label).Related (fun routine same _ ↦ routine.Renumbered gaps same) other

end Value

/-- The same values in order, each under other numbers. -/
abbrev AllRenumbered (gaps : Gaps) (values others : List Value) : Prop :=
  List.Forall₂ (Value.Renumbered gaps) values others

theorem allRenumbered_iff {values others : List Value} :
    AllRenumbered gaps values others ↔ List.Forall₂
      (Value.Related fun routine same _ ↦ routine.Renumbered gaps same)
      (Value.relabelAll gaps.label values) others := by
  rw [Value.relabelAll_eq_map, List.forall₂_map_left_iff]
  rfl

/-- Results that are related once they are mapped. -/
theorem Agree.of_map {ε α β γ : Type} {relation : β → γ → Prop} {f : α → β}
    {first : Except ε α} {second : Except ε γ} (h : Agree relation (first.map f) second) :
    Agree (fun value ↦ relation (f value)) first second := by
  cases first <;> cases second <;> exact h

namespace Value.Renumbered

variable {value other second third : Value} {values others : List Value}

theorem kind_eq (h : value.Renumbered gaps other) : other.kind = value.kind := by
  rw [← Related.kind_eq h, kind_relabel]

theorem isTruthy_eq (h : value.Renumbered gaps other) : other.isTruthy = value.isTruthy := by
  rw [← Related.isTruthy_eq h, isTruthy_relabel]

/-- Values under other numbers are shown alike. -/
theorem inspect_eq (h : value.Renumbered gaps other) : other.inspect = value.inspect := by
  rw [← Related.inspect_eq _ _ h, inspect_relabel]

theorem operate (h : value.Renumbered gaps other) (hsecond : second.Renumbered gaps third)
    (label : Label) (op : Opcode) :
    Agree (Renumbered gaps) (value.operate label op second)
      (other.operate (gaps.label label) op third) := by
  have hagree := Related.operate h hsecond (gaps.label label) op
  rw [operate_relabel] at hagree
  exact hagree.of_map

theorem compare_eq (h : value.Renumbered gaps other) (hsecond : second.Renumbered gaps third)
    (op : Opcode) : other.compare op third = value.compare op second := by
  rw [← Related.compare_eq h hsecond, compare_relabel gaps.label_injective]

theorem negate (h : value.Renumbered gaps other) :
    Agree (Renumbered gaps) value.negate other.negate := by
  have hagree := Related.negate h
  rw [negate_relabel] at hagree
  exact hagree.of_map

theorem lookUp (h : value.Renumbered gaps other) (hsecond : second.Renumbered gaps third) :
    Agree (Renumbered gaps) (value.lookUp second) (other.lookUp third) := by
  have hagree := Related.lookUp h hsecond
  rw [lookUp_relabel] at hagree
  exact hagree.of_map

/-- A hash is made of items as it is made of them under other numbers. -/
theorem addAll (h : AllRenumbered gaps values others) :
    Agree (fun entries same ↦ ∀ label,
        (Value.hash label entries).Renumbered gaps (.hash (gaps.label label) same))
      (Entries.addAll [] values) (Entries.addAll [] others) := by
  have hnone : Entries.Related (fun routine same _ ↦ Routine.Renumbered gaps routine same) [] [] :=
    .nil
  have hadded := hnone.addAll (allRenumbered_iff.mp h)
  have hmapped : Entries.addAll [] (relabelAll gaps.label values) =
      (Entries.addAll [] values).map (relabelEntries gaps.label) := addAll_relabel [] values
  rw [hmapped] at hadded
  have hrelated := hadded.of_map
  generalize Entries.addAll [] values = first at hrelated
  generalize Entries.addAll [] others = same at hrelated
  cases first <;> cases same
  case ok.ok =>
    obtain ⟨hkeys, hvalues⟩ := Entries.related_iff.mp hrelated
    exact fun label ↦ .hash _ hkeys hvalues
  all_goals exact hrelated

theorem integer (value : Int64) : (Value.integer value).Renumbered gaps (.integer value) :=
  Related.integer value

theorem string (label : Label) (content : String) :
    (Value.string label content).Renumbered gaps (.string (gaps.label label) content) :=
  Related.string _ content

theorem boolean (value : Bool) : (Value.boolean value).Renumbered gaps (.boolean value) :=
  Related.boolean value

theorem null : Value.null.Renumbered gaps .null :=
  Related.null

theorem array (label : Label) (h : AllRenumbered gaps values others) :
    (Value.array label values).Renumbered gaps (.array (gaps.label label) others) :=
  Related.array _ (allRenumbered_iff.mp h)

theorem hash (label : Label) {entries same : Entries}
    (hkeys : entries.map Prod.fst = same.map Prod.fst)
    (h : AllRenumbered gaps (entries.map Prod.snd) (same.map Prod.snd)) :
    (Value.hash label entries).Renumbered gaps (.hash (gaps.label label) same) := by
  have hvalues := allRenumbered_iff.mp h
  refine Related.hash _ ?_ ?_
  · rw [relabelEntries_eq_map, List.map_map]
    exact hkeys
  · rw [relabelAll_eq_map, List.map_map] at hvalues
    rw [relabelEntries_eq_map, List.map_map]
    exact hvalues

theorem closure (label : Label) {routine same : Routine} (hroutine : routine.Renumbered gaps same)
    (h : AllRenumbered gaps values others) :
    (Value.closure label routine values).Renumbered gaps
      (.closure (gaps.label label) same others) :=
  Related.closure _ hroutine (allRenumbered_iff.mp h)

/-- A provided function prints the same. -/
theorem printed_eq (h : AllRenumbered gaps values others) (builtin : Builtin) :
    builtin.printed others = builtin.printed values := by
  rw [← Builtin.printed_eq (allRenumbered_iff.mp h), Builtin.printed_relabel]

theorem call (h : AllRenumbered gaps values others) (label : Label) (builtin : Builtin) :
    (builtin.call label values).Renumbered gaps (builtin.call (gaps.label label) others) := by
  unfold Renumbered
  rw [← Builtin.call_relabel]
  exact Builtin.call_related (allRenumbered_iff.mp h) _ builtin

end Value.Renumbered

end StackScript
