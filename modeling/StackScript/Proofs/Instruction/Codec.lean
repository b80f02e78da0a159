import StackScript.Instruction.Listing
import StackScript.Proofs.Instruction.Stream

/-!
Code read back into instructions. A scan takes one instruction after the other, each as long as its
operation code says, and gives up at a byte that is no operation code and at operands that are cut
short. It finds a list of instructions if and only if the code is made of exactly these, each of
them fitting (`scan?_eq_some_iff`), and then the listing of the code has one line for each of them,
at the offset where it starts (`lines_encodeAll`). Operands that do not fit are written all the
same: they come back padded with zeros and without their high bytes
(`readOperands?_encodeOperands_stored`).
-/

set_option autoImplicit false
set_option relaxedAutoImplicit false

namespace StackScript

namespace Instruction

open Opcode (Width)

/-- The instructions of which the code consists. -/
def scan? (code : List UInt8) : Option (List Instruction) :=
  match code with
  | [] => some []
  | byte :: bytes =>
    match Opcode.ofByte? byte with
    | none => none
    | some opcode =>
      match _ : readOperands? opcode.widths bytes with
      | none => none
      | some (operands, rest) => (scan? rest).map fun others ↦ ⟨opcode, operands⟩ :: others
termination_by code.length
decreasing_by
  have := length_of_readOperands? ‹_›
  simp only [List.length_cons]
  omega

/-- What places of these widths hold of the operands: zeros where operands are absent, and no more
of each operand than there is room for. -/
def stored (widths : List Width) (operands : List Nat) : List Nat :=
  widths.mapIdx fun i width ↦ operands[i]?.getD 0 % width.bound

/-! ### Operands of any number and size -/

theorem readOperands?_encodeOperands_stored (widths : List Width) (operands : List Nat)
    (rest : List UInt8) :
    readOperands? widths (encodeOperands widths operands ++ rest) =
      some (stored widths operands, rest) := by
  induction widths generalizing operands with
  | nil => cases operands <;> rfl
  | cons width widths ih =>
    cases operands with
    | nil =>
      have hrest := ih []
      simp only [stored, List.getElem?_nil] at hrest ⊢
      simp [readOperands?, encodeOperands, readOperand?_encodeOperand_mod, hrest]
    | cons operand operands =>
      have hrest := ih operands
      simp only [stored] at hrest ⊢
      simp [readOperands?, encodeOperands, readOperand?_encodeOperand_mod, hrest]

/-! ### Operands that were read -/

theorem encodeOperand_of_readOperand? {width : Width} {bytes rest : List UInt8} {operand : Nat}
    (h : readOperand? width bytes = some (operand, rest)) :
    operand < width.bound ∧ encodeOperand width operand ++ rest = bytes := by
  cases width with
  | one =>
    rcases bytes with _ | ⟨byte, bytes⟩
    · cases h
    · cases h
      exact ⟨byte.toNat_lt, by simp [encodeOperand]⟩
  | two =>
    rcases bytes with _ | ⟨high, _ | ⟨low, bytes⟩⟩
    · cases h
    · cases h
    · cases h
      have hhigh := high.toNat_lt
      have hlow := low.toNat_lt
      have hdiv : (256 * high.toNat + low.toNat) / 256 = high.toNat := by omega
      have hmod : UInt8.ofNat (256 * high.toNat + low.toNat) = low := by
        apply UInt8.toNat_inj.mp
        rw [UInt8.toNat_ofNat']
        omega
      refine ⟨by simp only [Width.bound]; omega, ?_⟩
      simp [encodeOperand, hdiv, hmod]

theorem encodeOperands_of_readOperands? {widths : List Width} {bytes rest : List UInt8}
    {operands : List Nat} (h : readOperands? widths bytes = some (operands, rest)) :
    List.Forall₂ (fun width operand ↦ operand < width.bound) widths operands ∧
      encodeOperands widths operands ++ rest = bytes := by
  induction widths generalizing bytes operands with
  | nil =>
    cases h
    exact ⟨.nil, rfl⟩
  | cons width widths ih =>
    simp only [readOperands?, Option.bind_eq_bind, Option.pure_def, Option.bind_eq_some_iff,
      Option.some.injEq, Prod.mk.injEq, Prod.exists] at h
    obtain ⟨operand, middle, hfirst, others, _, hrest, rfl, rfl⟩ := h
    obtain ⟨hbound, hbytes⟩ := encodeOperand_of_readOperand? hfirst
    obtain ⟨hfits, hmiddle⟩ := ih hrest
    exact ⟨.cons hbound hfits, by rw [encodeOperands, List.append_assoc, hmiddle, hbytes]⟩

/-! ### Whole streams -/

theorem scan?_nil : scan? [] = some [] := by
  rw [scan?]

/-- The instruction at the head, and then the others. -/
theorem scan?_bytes_append {instruction : Instruction} (h : instruction.Fits)
    (rest : List UInt8) :
    scan? (instruction.bytes ++ rest) = (scan? rest).map fun others ↦ instruction :: others := by
  rw [bytes_eq_cons, List.cons_append, scan?]
  simp only [Opcode.ofByte?_toByte]
  split
  · next hnone =>
    rw [readOperands?_encodeOperands h] at hnone
    cases hnone
  · next operands others hread =>
    rw [readOperands?_encodeOperands h] at hread
    cases hread
    rfl

theorem scan?_encodeAll {instructions : List Instruction}
    (h : ∀ instruction ∈ instructions, instruction.Fits) :
    scan? (encodeAll instructions) = some instructions := by
  induction instructions with
  | nil => exact scan?_nil
  | cons instruction rest ih =>
    rw [encodeAll_cons, scan?_bytes_append (h _ List.mem_cons_self),
      ih fun other hother ↦ h other (List.mem_cons_of_mem _ hother)]
    rfl

theorem encodeAll_of_scan? {code : List UInt8} {instructions : List Instruction}
    (h : scan? code = some instructions) :
    encodeAll instructions = code ∧ ∀ instruction ∈ instructions, instruction.Fits := by
  induction code using scan?.induct generalizing instructions with
  | case1 =>
    rw [scan?_nil] at h
    cases h
    exact ⟨rfl, by simp⟩
  | case2 byte bytes hbyte =>
    rw [scan?] at h
    simp [hbyte] at h
  | case3 byte bytes opcode hbyte hread =>
    rw [scan?] at h
    simp only [hbyte] at h
    split at h
    · cases h
    · next hsome =>
      rw [hread] at hsome
      cases hsome
  | case4 byte bytes opcode hbyte operands rest hread ih =>
    rw [scan?] at h
    simp only [hbyte] at h
    split at h
    · cases h
    · next hsome =>
      rw [hread] at hsome
      cases hsome
      obtain ⟨others, hothers, rfl⟩ := Option.map_eq_some_iff.mp h
      obtain ⟨hrest, hfits⟩ := ih hothers
      obtain ⟨hhead, hbytes⟩ := encodeOperands_of_readOperands? hread
      refine ⟨?_, List.forall_mem_cons.mpr ⟨hhead, hfits⟩⟩
      rw [encodeAll_cons, bytes_eq_cons, hrest, List.cons_append, hbytes,
        Opcode.toByte_of_ofByte? hbyte]

/-- A scan finds these instructions if and only if the code is made of them and they all fit. -/
theorem scan?_eq_some_iff {code : List UInt8} {instructions : List Instruction} :
    scan? code = some instructions ↔
      encodeAll instructions = code ∧ ∀ instruction ∈ instructions, instruction.Fits := by
  refine ⟨encodeAll_of_scan?, ?_⟩
  rintro ⟨rfl, hfits⟩
  exact scan?_encodeAll hfits

end Instruction

/-! ### Listings -/

namespace Listing

open Instruction

/-- The instructions with the offsets at which they start, the first one at `offset`. -/
def placed (offset : Nat) : List Instruction → List (Nat × Instruction)
  | [] => []
  | instruction :: rest => (offset, instruction) :: placed (offset + instruction.length) rest

/-- The decimal digits of a number, behind as many zeros as `width` characters leave room for. -/
def decimal (width number : Nat) : String :=
  String.ofList ((Nat.toDigits 10 number).leftpad width '0')

/-- The line of an instruction: where it starts, in four digits at least, its name and its
operands. -/
def instructionLine (offset : Nat) (instruction : Instruction) : String :=
  " ".intercalate (decimal 4 offset :: instruction.opcode.name ::
    instruction.operands.map (decimal 0))

theorem toString_eq_decimal (number : Nat) : toString number = decimal 0 number := by
  simp [decimal, List.leftpad, Nat.repr_eq_ofList_toDigits]

/-- An offset is shown in its decimal digits behind zeros, in four characters at least. -/
theorem offsetText_eq_decimal (offset : Nat) :
    offsetText offset = decimal 4 offset ∧ 4 ≤ (offsetText offset).length := by
  have hdigits : offsetText offset = decimal 4 offset := by
    simp [offsetText, decimal, List.leftpad]
  refine ⟨hdigits, ?_⟩
  rw [hdigits, decimal, String.length_ofList, List.length_leftpad]
  exact Nat.le_max_left _ _

theorem linesFrom_bytes_append {instruction : Instruction} (h : instruction.Fits) (offset : Nat)
    (done : List Line) (rest : List UInt8) :
    linesFrom offset done (instruction.bytes ++ rest) =
      linesFrom (offset + instruction.length) (.decoded offset instruction :: done) rest := by
  rw [bytes_eq_cons, List.cons_append, linesFrom]
  simp only [Opcode.ofByte?_toByte]
  split
  · next hnone =>
    rw [readOperands?_encodeOperands h] at hnone
    cases hnone
  · next operands others hread =>
    rw [readOperands?_encodeOperands h] at hread
    cases hread
    rfl

theorem linesFrom_encodeAll {instructions : List Instruction}
    (h : ∀ instruction ∈ instructions, instruction.Fits) (offset : Nat) (done : List Line) :
    linesFrom offset done (encodeAll instructions) =
      done.reverse ++ (placed offset instructions).map fun (start, instruction) ↦
        .decoded start instruction := by
  induction instructions generalizing offset done with
  | nil =>
    rw [encodeAll_nil, linesFrom]
    simp [placed]
  | cons instruction rest ih =>
    rw [encodeAll_cons, linesFrom_bytes_append (h _ List.mem_cons_self),
      ih fun other hother ↦ h other (List.mem_cons_of_mem _ hother)]
    simp [placed]

/-- One line for each instruction, and no other. -/
theorem lines_encodeAll {instructions : List Instruction}
    (h : ∀ instruction ∈ instructions, instruction.Fits) :
    lines (encodeAll instructions) = (placed 0 instructions).map fun (offset, instruction) ↦
      .decoded offset instruction :=
  linesFrom_encodeAll h 0 []

theorem foldl_eq_intercalate {α : Type} [ToString α] (items : List α) (text : String) :
    items.foldl (fun text item ↦ text ++ " " ++ toString item) text =
      " ".intercalate (text :: items.map toString) := by
  induction items generalizing text with
  | nil => simp
  | cons item rest ih =>
    rw [List.foldl_cons, ih, List.map_cons, String.intercalate_cons_cons]
    cases rest with
    | nil => simp
    | cons other others =>
      simp only [List.map_cons, String.intercalate_cons_cons, String.append_assoc]

theorem text_decoded (offset : Nat) (instruction : Instruction) :
    (Line.decoded offset instruction).text = instructionLine offset instruction := by
  have hinstruction : instructionText instruction =
      " ".intercalate (instruction.opcode.name :: instruction.operands.map toString) :=
    foldl_eq_intercalate _ _
  have hoperands : instruction.operands.map toString = instruction.operands.map (decimal 0) :=
    List.map_congr_left fun operand _ ↦ toString_eq_decimal operand
  change offsetText offset ++ " " ++ instructionText instruction = _
  rw [hinstruction, hoperands, (offsetText_eq_decimal offset).1, instructionLine,
    String.intercalate_cons_cons]

theorem text_eq_join (code : List UInt8) :
    text code = String.join ((lines code).map fun line ↦ line.text ++ "\n") := by
  unfold text String.join
  rw [List.foldl_map]
  congr 1
  funext whole line
  rw [String.append_assoc]

/-- The text of the listing holds these lines and nothing else. -/
theorem text_encodeAll {instructions : List Instruction}
    (h : ∀ instruction ∈ instructions, instruction.Fits) :
    text (encodeAll instructions) = String.join ((placed 0 instructions).map
      fun (offset, instruction) ↦ instructionLine offset instruction ++ "\n") := by
  rw [text_eq_join, lines_encodeAll h, List.map_map]
  simp only [Function.comp_def, text_decoded]

end Listing

/-! ### The codec -/

namespace Instruction

/-- Spec §4.3, encoding and listing. Code that a scan reads to its end and lists of fitting
instructions are in correspondence, the listing shows the instructions one by one, and what does not
fit is written at the same length. A line shows the offset in its decimal digits, behind zeros up to
four characters, the name of the operation code and the operands. -/
theorem scan_encode :
    (∀ code instructions, scan? code = some instructions ↔
      encodeAll instructions = code ∧ ∀ instruction ∈ instructions, instruction.Fits) ∧
    (∀ instructions : List Instruction, (∀ instruction ∈ instructions, instruction.Fits) →
      Listing.lines (encodeAll instructions) =
        (Listing.placed 0 instructions).map (fun (offset, instruction) ↦
          .decoded offset instruction) ∧
      Listing.text (encodeAll instructions) =
        String.join ((Listing.placed 0 instructions).map fun (offset, instruction) ↦
          Listing.instructionLine offset instruction ++ "\n")) ∧
    ∀ (opcode : Opcode) (operands : List Nat),
      (encode opcode operands).length = opcode.byteLength ∧
      ∃ bytes, encode opcode operands = opcode.toByte :: bytes ∧
        readOperands? opcode.widths bytes = some (stored opcode.widths operands, []) := by
  refine ⟨fun _ _ ↦ scan?_eq_some_iff, fun instructions hfits ↦ ?_, fun opcode operands ↦ ?_⟩
  · exact ⟨Listing.lines_encodeAll hfits, Listing.text_encodeAll hfits⟩
  · refine ⟨length_encode opcode operands, encodeOperands opcode.widths operands, rfl, ?_⟩
    have hread := readOperands?_encodeOperands_stored opcode.widths operands []
    rwa [List.append_nil] at hread

/-- A closure of an entry above one byte, a jump and an addition. -/
theorem scan_encode_mixed :
    (∀ instruction ∈ [⟨.closure, [258, 7]⟩, ⟨.jump, [0]⟩, ⟨.add, []⟩], Fits instruction) ∧
    Listing.lines (encodeAll [⟨.closure, [258, 7]⟩, ⟨.jump, [0]⟩, ⟨.add, []⟩]) =
      [.decoded 0 ⟨.closure, [258, 7]⟩, .decoded 4 ⟨.jump, [0]⟩, .decoded 7 ⟨.add, []⟩] ∧
    Listing.text (encodeAll [⟨.closure, [258, 7]⟩, ⟨.jump, [0]⟩, ⟨.add, []⟩]) =
      "0000 OpClosure 258 7\n0004 OpJump 0\n0007 OpAdd\n" := by
  have hfits : ∀ instruction ∈ [⟨.closure, [258, 7]⟩, ⟨.jump, [0]⟩, ⟨.add, []⟩],
      Fits instruction := by
    unfold Fits
    decide
  obtain ⟨hlines, htext⟩ := scan_encode.2.1 _ hfits
  exact ⟨hfits, hlines, htext.trans (by decide)⟩

end Instruction

end StackScript
