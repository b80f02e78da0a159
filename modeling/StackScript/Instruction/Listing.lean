import StackScript.Instruction

/-!
Listings of code: one line for each instruction, with the offset at which it starts. A byte that
is no operation code is passed over; an instruction cut short ends the listing.
-/

set_option autoImplicit false
set_option relaxedAutoImplicit false

namespace StackScript

inductive Listing.Line where
  | decoded (offset : Nat) (instruction : Instruction)
  | unknown (byte : UInt8)
  | truncated (offset : Nat) (opcode : Opcode)
  deriving DecidableEq, Repr

namespace Listing

/-- An offset in four digits at least. -/
def offsetText (offset : Nat) : String :=
  let digits := (toString offset).toList
  String.ofList (List.replicate (4 - digits.length) '0' ++ digits)

def instructionText (instruction : Instruction) : String :=
  instruction.operands.foldl (fun text operand ↦ text ++ " " ++ toString operand)
    instruction.opcode.name

def Line.text : Line → String
  | decoded offset instruction => offsetText offset ++ " " ++ instructionText instruction
  | unknown byte => s!"ERROR: no opcode for value {byte.toNat}"
  | truncated offset opcode => offsetText offset ++ " ERROR: truncated " ++ opcode.name

/-- The lines of the code that starts at `offset`, behind the lines `done`, the last of them
first. -/
def linesFrom (offset : Nat) (done : List Line) (code : List UInt8) : List Line :=
  match code with
  | [] => done.reverse
  | byte :: bytes =>
    match Opcode.ofByte? byte with
    | none => linesFrom (offset + 1) (.unknown byte :: done) bytes
    | some opcode =>
      match _ : Instruction.readOperands? opcode.widths bytes with
      | none => (Line.truncated offset opcode :: done).reverse
      | some (operands, rest) =>
        linesFrom (offset + opcode.byteLength) (.decoded offset ⟨opcode, operands⟩ :: done) rest
termination_by code.length
decreasing_by
  · simp
  · have := Instruction.length_of_readOperands? ‹_›
    simp only [List.length_cons]
    omega

def lines (code : List UInt8) : List Line :=
  linesFrom 0 [] code

/-- The lines, each ended by a line feed. -/
def text (code : List UInt8) : String :=
  (lines code).foldl (fun text line ↦ text ++ line.text ++ "\n") ""

end Listing

end StackScript
