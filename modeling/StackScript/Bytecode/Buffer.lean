import StackScript.Instruction

/-!
Code that is being written. New instructions go to the end; what is at the end can be taken back
or changed, and a jump can be given its target once that is known.
-/

set_option autoImplicit false
set_option relaxedAutoImplicit false

namespace StackScript

/-- An instruction that was written, and where it starts. -/
structure Buffer.Entry where
  opcode : Opcode
  position : Nat
  deriving DecidableEq, Repr

structure Buffer where
  code : Array UInt8 := #[]
  /-- The instruction at the end. -/
  last : Option Buffer.Entry := none
  /-- The one that was at the end before the last was written. -/
  previous : Option Buffer.Entry := none
  deriving DecidableEq, Repr, Inhabited

namespace Buffer

def append (buffer : Buffer) (opcode : Opcode) (operands : List Nat) : Buffer :=
  let position := buffer.code.size
  { code := buffer.code ++ Instruction.encode opcode operands
    last := some ⟨opcode, position⟩
    previous := buffer.last }

def endsWith (buffer : Buffer) (opcode : Opcode) : Bool :=
  match buffer.last with
  | some entry => entry.opcode = opcode
  | none => false

/-- Takes the last instruction back. -/
def dropLast (buffer : Buffer) : Buffer :=
  match buffer.last with
  | some entry =>
    { buffer with code := buffer.code.shrink entry.position, last := buffer.previous }
  | none => buffer

/-- Writes bytes over those from `position` on. -/
def overwrite (position : Nat) (bytes : List UInt8) (code : Array UInt8) : Array UInt8 :=
  match bytes with
  | [] => code
  | byte :: rest => overwrite (position + 1) rest (code.setIfInBounds position byte)

def replaceAt (buffer : Buffer) (position : Nat) (opcode : Opcode) (operands : List Nat) :
    Buffer :=
  { buffer with code := overwrite position (Instruction.encode opcode operands) buffer.code }

/-- Puts another instruction without operands in the place of the last one. -/
def replaceLast (buffer : Buffer) (opcode : Opcode) : Buffer :=
  match buffer.last with
  | some entry =>
    { buffer.replaceAt entry.position opcode [] with last := some { entry with opcode := opcode } }
  | none => buffer

@[simp] theorem size_overwrite (position : Nat) (bytes : List UInt8) (code : Array UInt8) :
    (overwrite position bytes code).size = code.size := by
  induction bytes generalizing position code with
  | nil => rfl
  | cons byte rest ih => simp [overwrite, ih]

@[simp] theorem size_append (buffer : Buffer) (opcode : Opcode) (operands : List Nat) :
    (buffer.append opcode operands).code.size = buffer.code.size + opcode.byteLength := by
  rw [← Array.length_toList]
  simp [append]

end Buffer

end StackScript
