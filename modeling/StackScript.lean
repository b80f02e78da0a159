import StackScript.Main
import StackScript.Proofs.StateMonad
import StackScript.Proofs.Instruction.Stream
import StackScript.Bytecode.Assemble
import StackScript.Proofs.Bytecode.Editing
import StackScript.Proofs.Bytecode.WellFormed
import StackScript.Proofs.Machine.Decode
import StackScript.Proofs.Value.Sound
import StackScript.Proofs.Machine.Safe
import StackScript.Proofs.Machine.Invariant
import StackScript.Proofs.Machine.Control
import StackScript.Proofs.Machine.Bounds
import StackScript.Proofs.Machine.Halting
import StackScript.Proofs.Session.Reachable
import StackScript.Proofs.Session.Runs
import StackScript.Program.Context
import StackScript.Program.Evaluate
import StackScript.Proofs.Program.Layout
import StackScript.Proofs.Machine.Stack
import StackScript.Proofs.Program.Site
import StackScript.Proofs.Program.Operation
import StackScript.Proofs.Program.Simulation
import StackScript.Proofs.Program.Calls
import StackScript.Proofs.Program.Correct
import StackScript.Proofs.Program.Branches
import StackScript.Proofs.Program.Depth
import StackScript.Proofs.Program.Levels
import StackScript.Proofs.Machine.Operands
import StackScript.Proofs.Machine.Layers
import StackScript.Proofs.Session.Layers
import StackScript.Proofs.Program.Shift
import StackScript.Proofs.Program.Outside
import StackScript.Proofs.Machine.Excerpt
import StackScript.Proofs.Machine.Relocation
import StackScript.Proofs.Session.Pieces
import StackScript.Proofs.Session.Names
import StackScript.Proofs.Scope.Resolution
import StackScript.Proofs.Program.Slots
import StackScript.Proofs.Machine.Globals
import StackScript.Proofs.Session.Moments
import StackScript.Proofs.Program.Passage
import StackScript.Proofs.Session.Visible
import StackScript.Bytecode.Compose
import StackScript.Program.Scoping
import StackScript.Proofs.Program.Scoping
import StackScript.Proofs.Bytecode.Compose
import StackScript.Proofs.Instruction.Codec
import StackScript.Program.Rename
import StackScript.Proofs.Program.Rename
import StackScript.Program.Grammar
import StackScript.Proofs.Program.Reading
import StackScript.Proofs.Program.Grammar
import StackScript.Program.Printer
import StackScript.Proofs.Program.Forms
import StackScript.Proofs.Token.Scan
import StackScript.Proofs.Program.Printer
import StackScript.Proofs.Json.Text
import StackScript.Proofs.Json.Pretty
import StackScript.Proofs.Program.Json
import StackScript.Proofs.Program.Bodies
import StackScript.Proofs.Machine.Turns
import StackScript.Proofs.Program.Directed
import StackScript.Proofs.Session.ControlFlow
import StackScript.Proofs.Machine.Discards
import StackScript.Proofs.Session.LastValue
import StackScript.Proofs.Machine.Leftovers
import StackScript.Proofs.Machine.Locals
import StackScript.Proofs.Session.Leftovers
import StackScript.Program.Recovery
import StackScript.Proofs.Program.Lookahead
import StackScript.Proofs.Program.Recovery
import StackScript.Proofs.Bytecode.AppendOnly
import StackScript.Proofs.Machine.Reading
import StackScript.Proofs.Machine.Hashes
import StackScript.Program.Arithmetic
import StackScript.Proofs.Program.Arithmetic
import StackScript.Proofs.Program.Progress
import StackScript.Token.Pattern
import StackScript.Proofs.Token.Tiling
import StackScript.Proofs.Value.Identity
import StackScript.Proofs.Machine.Identity
import StackScript.Proofs.Program.Pool
import StackScript.Proofs.Session.Identity
import StackScript.Proofs.Session.Comparing
import StackScript.Proofs.Session.Failures
import StackScript.Proofs.Scope.Consistency
import StackScript.Proofs.Program.Operators
import StackScript.Program.Room
import StackScript.Proofs.Program.Room
import StackScript.Proofs.Program.Peak
import StackScript.Proofs.Machine.Straight
import StackScript.Proofs.Program.StackBound
