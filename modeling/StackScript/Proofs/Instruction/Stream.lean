import StackScript.Instruction
import Mathlib.Data.List.Forall2

/-!
Code as a sequence of whole instructions. An instruction fits if its operands are as many as its
operation takes and none is too large for its place. The bytes of fitting instructions, one after
the other, determine the instructions (`eq_of_encodeAll_eq`), and a piece of code that is loaded at
an offset splits where its instructions split (`loaded_append`).
-/

set_option autoImplicit false
set_option relaxedAutoImplicit false

namespace StackScript

namespace Instruction

open Opcode (Width)

def length (instruction : Instruction) : Nat :=
  instruction.opcode.byteLength

def bytes (instruction : Instruction) : List UInt8 :=
  encode instruction.opcode instruction.operands

/-- As many operands as the operation takes, each within its width. -/
def Fits (instruction : Instruction) : Prop :=
  List.Forall₂ (fun width operand ↦ operand < width.bound)
    instruction.opcode.widths instruction.operands

/-- The bytes of the instructions, one after the other. -/
def encodeAll : List Instruction → List UInt8
  | [] => []
  | instruction :: rest => instruction.bytes ++ encodeAll rest

/-- How many bytes the instructions take. -/
def size : List Instruction → Nat
  | [] => 0
  | instruction :: rest => instruction.length + size rest

@[simp] theorem length_bytes (instruction : Instruction) :
    instruction.bytes.length = instruction.length :=
  length_encode _ _

theorem length_pos (instruction : Instruction) : 0 < instruction.length := by
  unfold length Opcode.byteLength
  omega

@[simp] theorem encodeAll_nil : encodeAll [] = [] := rfl

@[simp] theorem encodeAll_cons (instruction : Instruction) (rest : List Instruction) :
    encodeAll (instruction :: rest) = instruction.bytes ++ encodeAll rest := rfl

@[simp] theorem encodeAll_append (first second : List Instruction) :
    encodeAll (first ++ second) = encodeAll first ++ encodeAll second := by
  induction first with
  | nil => rfl
  | cons instruction rest ih => simp [ih]

@[simp] theorem size_nil : size [] = 0 := rfl

@[simp] theorem size_cons (instruction : Instruction) (rest : List Instruction) :
    size (instruction :: rest) = instruction.length + size rest := rfl

@[simp] theorem size_append (first second : List Instruction) :
    size (first ++ second) = size first + size second := by
  induction first with
  | nil => simp
  | cons instruction rest ih => simp [ih, Nat.add_assoc]

@[simp] theorem length_encodeAll (instructions : List Instruction) :
    (encodeAll instructions).length = size instructions := by
  induction instructions with
  | nil => rfl
  | cons instruction rest ih => simp [ih]

/-! ### Operands read back -/

/-- An operand that is too large comes back without its high bytes. -/
theorem readOperand?_encodeOperand_mod (width : Width) (operand : Nat) (rest : List UInt8) :
    readOperand? width (encodeOperand width operand ++ rest) =
      some (operand % width.bound, rest) := by
  cases width with
  | one => simp [readOperand?, encodeOperand, readByte?, Width.bound]
  | two =>
    have hword : 256 * (operand / 256 % 256) + operand % 256 = operand % 65536 := by omega
    simp [readOperand?, encodeOperand, readWord?, Width.bound, hword]

theorem readOperand?_encodeOperand {width : Width} {operand : Nat} (h : operand < width.bound)
    (rest : List UInt8) :
    readOperand? width (encodeOperand width operand ++ rest) = some (operand, rest) := by
  rw [readOperand?_encodeOperand_mod, Nat.mod_eq_of_lt h]

theorem readOperands?_encodeOperands {widths : List Width} {operands : List Nat}
    (h : List.Forall₂ (fun width operand ↦ operand < width.bound) widths operands)
    (rest : List UInt8) :
    readOperands? widths (encodeOperands widths operands ++ rest) = some (operands, rest) := by
  induction h with
  | nil => rfl
  | cons hfirst _ ih =>
    simp [readOperands?, encodeOperands, readOperand?_encodeOperand hfirst, ih]

theorem bytes_eq_cons (instruction : Instruction) :
    instruction.bytes = instruction.opcode.toByte ::
      encodeOperands instruction.opcode.widths instruction.operands := rfl

/-- Fitting instructions are told apart by their bytes, whatever follows them. -/
theorem eq_of_bytes_append_eq {first second : Instruction} {rest other : List UInt8}
    (hfirst : first.Fits) (hsecond : second.Fits)
    (h : first.bytes ++ rest = second.bytes ++ other) : first = second ∧ rest = other := by
  obtain ⟨firstOp, firstOperands⟩ := first
  obtain ⟨secondOp, secondOperands⟩ := second
  simp only [bytes_eq_cons, List.cons_append, List.cons.injEq] at h
  obtain ⟨hbyte, hrest⟩ := h
  have hop : firstOp = secondOp := by
    have hdecoded := congrArg Opcode.ofByte? hbyte
    simpa using hdecoded
  subst hop
  have hread := readOperands?_encodeOperands hfirst rest
  rw [hrest, readOperands?_encodeOperands hsecond other] at hread
  simp only [Option.some.injEq, Prod.mk.injEq] at hread
  rw [hread.1, hread.2]
  exact ⟨rfl, rfl⟩

/-- The bytes of fitting instructions determine the instructions. -/
theorem eq_of_encodeAll_eq {first second : List Instruction}
    (hfirst : ∀ instruction ∈ first, instruction.Fits)
    (hsecond : ∀ instruction ∈ second, instruction.Fits)
    (h : encodeAll first = encodeAll second) : first = second := by
  induction first generalizing second with
  | nil =>
    cases second with
    | nil => rfl
    | cons instruction rest => simp [bytes_eq_cons] at h
  | cons instruction rest ih =>
    cases second with
    | nil => simp [bytes_eq_cons] at h
    | cons other others =>
      obtain ⟨hhead, htail⟩ := eq_of_bytes_append_eq (hfirst _ List.mem_cons_self)
        (hsecond _ List.mem_cons_self) h
      have hrest := ih (fun i hi ↦ hfirst i (List.mem_cons_of_mem _ hi))
        (fun i hi ↦ hsecond i (List.mem_cons_of_mem _ hi)) htail
      rw [hhead, hrest]

theorem fits_of_oversized?_eq_none {opcode : Opcode} {operands : List Nat}
    (hlength : operands.length = opcode.widths.length)
    (h : oversized? opcode.widths operands = none) : Fits ⟨opcode, operands⟩ := by
  unfold Fits
  simp only
  generalize opcode.widths = widths at hlength h ⊢
  induction widths generalizing operands with
  | nil =>
    rw [List.length_eq_zero_iff.mp hlength]
    exact .nil
  | cons width widths ih =>
    cases operands with
    | nil => simp at hlength
    | cons operand operands =>
      simp only [oversized?] at h
      split at h
      · next hfits => exact .cons hfits (ih (by simpa using hlength) h)
      · simp at h

theorem oversized?_eq_none_of_fits {opcode : Opcode} {operands : List Nat}
    (h : Fits ⟨opcode, operands⟩) : oversized? opcode.widths operands = none := by
  have hall : ∀ {widths : List Width} {operands : List Nat},
      List.Forall₂ (fun width operand ↦ operand < width.bound) widths operands →
        oversized? widths operands = none := by
    intro widths operands h
    induction h with
    | nil => rfl
    | cons hoperand _ ih =>
      rw [oversized?, if_pos hoperand]
      exact ih
  exact hall h

namespace Fits

variable {opcode : Opcode} {operands : List Nat}

theorem eq_nil (h : Fits ⟨opcode, operands⟩) (hwidths : opcode.widths = []) : operands = [] := by
  unfold Fits at h
  rw [hwidths] at h
  exact List.forall₂_nil_left_iff.mp h

theorem eq_single {width : Width} (h : Fits ⟨opcode, operands⟩) (hwidths : opcode.widths = [width]) :
    ∃ operand, operands = [operand] ∧ operand < width.bound := by
  unfold Fits at h
  rw [hwidths] at h
  obtain ⟨operand, rest, hoperand, hrest, rfl⟩ := List.forall₂_cons_left_iff.mp h
  rw [List.forall₂_nil_left_iff.mp hrest]
  exact ⟨operand, rfl, hoperand⟩

theorem eq_pair {width second : Width} (h : Fits ⟨opcode, operands⟩)
    (hwidths : opcode.widths = [width, second]) :
    ∃ operand other, operands = [operand, other] ∧ operand < width.bound ∧ other < second.bound := by
  unfold Fits at h
  rw [hwidths] at h
  obtain ⟨operand, rest, hoperand, hrest, rfl⟩ := List.forall₂_cons_left_iff.mp h
  obtain ⟨other, last, hother, hlast, rfl⟩ := List.forall₂_cons_left_iff.mp hrest
  rw [List.forall₂_nil_left_iff.mp hlast]
  exact ⟨operand, other, rfl, hoperand, hother⟩

end Fits

end Instruction

/-! ### Instructions at an offset -/

open Instruction

/-- The instructions stand in the code from `offset` on. -/
def Loaded (code : Array UInt8) (offset : Nat) (instructions : List Instruction) : Prop :=
  ∃ before after, code.toList = before ++ encodeAll instructions ++ after ∧
    before.length = offset

theorem loaded_append {code : Array UInt8} {offset : Nat} {first second : List Instruction} :
    Loaded code offset (first ++ second) ↔
      Loaded code offset first ∧ Loaded code (offset + size first) second := by
  constructor
  · rintro ⟨before, after, hcode, rfl⟩
    refine ⟨⟨before, encodeAll second ++ after, ?_, rfl⟩,
      ⟨before ++ encodeAll first, after, ?_, ?_⟩⟩
    · simpa using hcode
    · simpa using hcode
    · simp
  · rintro ⟨⟨before, after, hcode, rfl⟩, ⟨longer, rest, hsecond, hlength⟩⟩
    have hsplit : (before ++ encodeAll first) ++ after =
        longer ++ (encodeAll second ++ rest) := by
      rw [← List.append_assoc longer, ← hsecond, ← hcode]
    obtain ⟨_, hafter⟩ := List.append_inj hsplit (by simp [hlength])
    refine ⟨before, rest, ?_, rfl⟩
    rw [hcode, hafter]
    simp

theorem Loaded.left {code : Array UInt8} {offset : Nat} {first second : List Instruction}
    (h : Loaded code offset (first ++ second)) : Loaded code offset first :=
  (loaded_append.mp h).1

theorem Loaded.right {code : Array UInt8} {offset : Nat} {first second : List Instruction}
    (h : Loaded code offset (first ++ second)) : Loaded code (offset + size first) second :=
  (loaded_append.mp h).2

/-- The bytes of a loaded instruction are found at their offsets. -/
theorem Loaded.getElem? {code : Array UInt8} {offset : Nat} {instruction : Instruction}
    (h : Loaded code offset [instruction]) {i : Nat} (hi : i < instruction.length) :
    code[offset + i]? = instruction.bytes[i]? := by
  obtain ⟨before, after, hcode, rfl⟩ := h
  rw [← Array.getElem?_toList, hcode, List.append_assoc,
    List.getElem?_append_right (Nat.le_add_right _ _), Nat.add_sub_cancel_left]
  simp only [encodeAll_cons, encodeAll_nil, List.append_nil]
  exact List.getElem?_append_left (by simpa using hi)

end StackScript
