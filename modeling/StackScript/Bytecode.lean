import StackScript.Instruction.Listing
import StackScript.Value

/-!
A program ready to run: its top-level code and the pool of constants that all its functions share.
-/

set_option autoImplicit false
set_option relaxedAutoImplicit false

namespace StackScript

structure Bytecode where
  code : Array UInt8
  constants : Array Value
  deriving Inhabited

namespace Bytecode

/-- A constant in a listing: a function with its code indented, any other value as it is shown. -/
def constantText (entry : Nat) (constant : Value) : String :=
  match constant with
  | .routine _ routine =>
    (Listing.lines routine.code.toList).foldl (fun text line ↦ text ++ "  " ++ line.text ++ "\n")
      s!"\nconstant {entry} fn (params={routine.parameters}, locals={routine.locals})\n"
  | other => s!"\nconstant {entry} {other.kind.name} {other.inspect}\n"

/-- The constants from entry `entry` on, behind `text`. -/
def constantsText (entry : Nat) (text : String) : List Value → String
  | [] => text
  | constant :: rest => constantsText (entry + 1) (text ++ constantText entry constant) rest

/-- The top-level code, then each constant behind an empty line. -/
def listing (bytecode : Bytecode) : String :=
  constantsText 0 (Listing.text bytecode.code.toList) bytecode.constants.toList

end Bytecode

end StackScript
