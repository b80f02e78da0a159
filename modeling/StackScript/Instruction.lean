/-!
Instructions as bytes: an operation code and then its operands, each of one or two bytes with the
high byte first. The code alone fixes how long an instruction is.
-/

set_option autoImplicit false
set_option relaxedAutoImplicit false

namespace StackScript

/-- The operations, in the order of their codes. -/
inductive Opcode where
  | constant
  | add
  | pop
  | sub
  | mul
  | div
  | equal
  | notEqual
  | greaterThan
  | minus
  | bang
  | jumpNotTruthy
  | jump
  | null
  | setGlobal
  | getGlobal
  | setLocal
  | getLocal
  | getFree
  | getBuiltin
  | array
  | hash
  | index
  | call
  | returnValue
  | closure
  | currentClosure
  | ret
  | true
  | false
  deriving DecidableEq, Repr, Inhabited

namespace Opcode

def all : List Opcode :=
  [constant, add, pop, sub, mul, div, equal, notEqual, greaterThan, minus, bang, jumpNotTruthy,
    jump, null, setGlobal, getGlobal, setLocal, getLocal, getFree, getBuiltin, array, hash, index,
    call, returnValue, closure, currentClosure, ret, true, false]

def toByte : Opcode → UInt8
  | constant => 0
  | add => 1
  | pop => 2
  | sub => 3
  | mul => 4
  | div => 5
  | equal => 6
  | notEqual => 7
  | greaterThan => 8
  | minus => 9
  | bang => 10
  | jumpNotTruthy => 11
  | jump => 12
  | null => 13
  | setGlobal => 14
  | getGlobal => 15
  | setLocal => 16
  | getLocal => 17
  | getFree => 18
  | getBuiltin => 19
  | array => 20
  | hash => 21
  | index => 22
  | call => 23
  | returnValue => 24
  | closure => 25
  | currentClosure => 26
  | ret => 27
  | true => 28
  | false => 29

def ofByte? : UInt8 → Option Opcode
  | 0 => some constant
  | 1 => some add
  | 2 => some pop
  | 3 => some sub
  | 4 => some mul
  | 5 => some div
  | 6 => some equal
  | 7 => some notEqual
  | 8 => some greaterThan
  | 9 => some minus
  | 10 => some bang
  | 11 => some jumpNotTruthy
  | 12 => some jump
  | 13 => some null
  | 14 => some setGlobal
  | 15 => some getGlobal
  | 16 => some setLocal
  | 17 => some getLocal
  | 18 => some getFree
  | 19 => some getBuiltin
  | 20 => some array
  | 21 => some hash
  | 22 => some index
  | 23 => some call
  | 24 => some returnValue
  | 25 => some closure
  | 26 => some currentClosure
  | 27 => some ret
  | 28 => some true
  | 29 => some false
  | _ => none

def name : Opcode → String
  | constant => "OpConstant"
  | add => "OpAdd"
  | pop => "OpPop"
  | sub => "OpSub"
  | mul => "OpMul"
  | div => "OpDiv"
  | equal => "OpEqual"
  | notEqual => "OpNotEqual"
  | greaterThan => "OpGreaterThan"
  | minus => "OpMinus"
  | bang => "OpBang"
  | jumpNotTruthy => "OpJumpNotTruthy"
  | jump => "OpJump"
  | null => "OpNull"
  | setGlobal => "OpSetGlobal"
  | getGlobal => "OpGetGlobal"
  | setLocal => "OpSetLocal"
  | getLocal => "OpGetLocal"
  | getFree => "OpGetFree"
  | getBuiltin => "OpGetBuiltin"
  | array => "OpArray"
  | hash => "OpHash"
  | index => "OpIndex"
  | call => "OpCall"
  | returnValue => "OpReturnValue"
  | closure => "OpClosure"
  | currentClosure => "OpCurrentClosure"
  | ret => "OpReturn"
  | true => "OpTrue"
  | false => "OpFalse"

/-- How many bytes an operand takes. -/
inductive Width where
  | one
  | two
  deriving DecidableEq, Repr

def Width.bytes : Width → Nat
  | one => 1
  | two => 2

/-- The least number that an operand of this width cannot hold. -/
def Width.bound : Width → Nat
  | one => 256
  | two => 65536

/-- Bytes of operands of these widths. -/
def Width.total : List Width → Nat
  | [] => 0
  | width :: widths => width.bytes + total widths

/-- The widths of an operation's operands. -/
def widths : Opcode → List Width
  | constant | jumpNotTruthy | jump | setGlobal | getGlobal | array | hash => [.two]
  | setLocal | getLocal | getFree | getBuiltin | call => [.one]
  | closure => [.two, .one]
  | _ => []

/-- Bytes of the operands. -/
def operandLength (op : Opcode) : Nat :=
  Width.total op.widths

/-- Bytes of the whole instruction. -/
def byteLength (op : Opcode) : Nat :=
  1 + op.operandLength

@[simp] theorem ofByte?_toByte (op : Opcode) : ofByte? op.toByte = some op := by
  cases op <;> rfl

theorem toByte_of_ofByte? {byte : UInt8} {op : Opcode} (h : ofByte? byte = some op) :
    op.toByte = byte := by
  unfold ofByte? at h
  split at h <;> simp_all <;> subst h <;> rfl

theorem mem_all (op : Opcode) : op ∈ all := by
  cases op <;> decide

end Opcode

/-- An operation with its operands. -/
structure Instruction where
  opcode : Opcode
  operands : List Nat
  deriving DecidableEq, Repr

namespace Instruction

open Opcode (Width)

/-- A number in so many bytes, its high bytes dropped. -/
def encodeOperand (width : Width) (operand : Nat) : List UInt8 :=
  match width with
  | .one => [UInt8.ofNat operand]
  | .two => [UInt8.ofNat (operand / 256), UInt8.ofNat operand]

/-- An absent operand counts as zero, and those beyond the widths are left out. -/
def encodeOperands : List Width → List Nat → List UInt8
  | [], _ => []
  | width :: widths, [] => encodeOperand width 0 ++ encodeOperands widths []
  | width :: widths, operand :: operands =>
    encodeOperand width operand ++ encodeOperands widths operands

def encode (opcode : Opcode) (operands : List Nat) : List UInt8 :=
  opcode.toByte :: encodeOperands opcode.widths operands

/-- The number in the first byte. -/
def readByte? : List UInt8 → Option Nat
  | byte :: _ => some byte.toNat
  | [] => none

/-- The number in the first two bytes. -/
def readWord? : List UInt8 → Option Nat
  | high :: low :: _ => some (256 * high.toNat + low.toNat)
  | _ => none

/-- The number at the head of the bytes, and the bytes behind it. -/
def readOperand? : Width → List UInt8 → Option (Nat × List UInt8)
  | .one, bytes => (readByte? bytes).map fun operand ↦ (operand, bytes.drop 1)
  | .two, bytes => (readWord? bytes).map fun operand ↦ (operand, bytes.drop 2)

/-- The operands of these widths, and the bytes behind them. -/
def readOperands? : List Width → List UInt8 → Option (List Nat × List UInt8)
  | [], bytes => some ([], bytes)
  | width :: widths, bytes => do
    let (operand, rest) ← readOperand? width bytes
    let (operands, rest) ← readOperands? widths rest
    return (operand :: operands, rest)

/-- The first operand that its place cannot hold. -/
def oversized? : List Width → List Nat → Option Nat
  | width :: widths, operand :: operands =>
    if operand < width.bound then oversized? widths operands else some operand
  | _, _ => none

@[simp] theorem length_encodeOperand (width : Width) (operand : Nat) :
    (encodeOperand width operand).length = width.bytes := by
  cases width <;> rfl

theorem length_encodeOperands (widths : List Width) (operands : List Nat) :
    (encodeOperands widths operands).length = Width.total widths := by
  induction widths generalizing operands with
  | nil => cases operands <;> rfl
  | cons width widths ih => cases operands <;> simp [encodeOperands, Width.total, ih]

/-- An instruction's length hangs on its code alone. -/
@[simp] theorem length_encode (opcode : Opcode) (operands : List Nat) :
    (encode opcode operands).length = opcode.byteLength := by
  simp [encode, length_encodeOperands, Opcode.byteLength, Opcode.operandLength, Nat.add_comm]

theorem length_of_readOperand? {width : Width} {bytes rest : List UInt8} {operand : Nat}
    (h : readOperand? width bytes = some (operand, rest)) :
    bytes.length = width.bytes + rest.length := by
  rcases width with _ | _ <;> rcases bytes with _ | ⟨_, _ | ⟨_, _⟩⟩ <;>
    simp only [readOperand?, readByte?, readWord?, Option.map_some, Option.map_none,
      Option.some.injEq, Prod.mk.injEq, List.drop_succ_cons, List.drop_zero, reduceCtorEq] at h <;>
    simp only [← h.2, Opcode.Width.bytes, List.length_cons, List.length_nil] <;>
    omega

theorem length_of_readOperands? {widths : List Width} {bytes rest : List UInt8}
    {operands : List Nat} (h : readOperands? widths bytes = some (operands, rest)) :
    bytes.length = Width.total widths + rest.length := by
  induction widths generalizing bytes operands with
  | nil =>
    simp only [readOperands?, Option.some.injEq, Prod.mk.injEq] at h
    simp [Width.total, h.2]
  | cons width widths ih =>
    simp only [readOperands?, Option.bind_eq_bind, Option.pure_def, Option.bind_eq_some_iff,
      Option.some.injEq, Prod.mk.injEq, Prod.exists] at h
    obtain ⟨operand, middle, hfirst, others, _, hrest, rfl, rfl⟩ := h
    have first := length_of_readOperand? hfirst
    have second := ih hrest
    simp only [Width.total]
    omega

end Instruction

end StackScript
