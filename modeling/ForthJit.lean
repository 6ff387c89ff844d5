import ForthJit.Fault
import ForthJit.Main
import ForthJit.Proofs.Compiler.Fixups
import ForthJit.Proofs.Machine.Flow
import ForthJit.Proofs.Compiler.Origin
import ForthJit.Proofs.Compiler.Sound
import ForthJit.Proofs.Compiler.Built
import ForthJit.Proofs.Compiler.Placed
import ForthJit.Proofs.Compiler.Ended
import ForthJit.Proofs.Compiler.Made
import ForthJit.Proofs.Compiler.Tiling
import ForthJit.Proofs.Compiler.Trace
import ForthJit.Proofs.Compiler.Written
import ForthJit.Proofs.Compiler.Errors
import ForthJit.Proofs.Compiler.Clobbers
import ForthJit.Proofs.Compiler.ControlFlow
import ForthJit.Proofs.Compiler.Address
import ForthJit.Proofs.Dictionary.Closure
import ForthJit.Proofs.Memory.Protection
import ForthJit.Proofs.Compiler.Balance
import ForthJit.Proofs.Compiler.Ways
import ForthJit.Proofs.Interpreter.Lines
import ForthJit.Proofs.Interpreter.Recovery
import ForthJit.Proofs.Interpreter.PrintedStack
import ForthJit.Proofs.Memory.Refusal
import ForthJit.Proofs.Compiler.Rejected
import ForthJit.Proofs.Machine.Execution
import ForthJit.Proofs.Machine.Effect
import ForthJit.Proofs.Definition.Homes
import ForthJit.Proofs.Definition.Targets
import ForthJit.Proofs.Machine.Unambiguous
import ForthJit.Proofs.Compiler.ReadAfterWrite
import ForthJit.Proofs.Compiler.Policy
import ForthJit.Proofs.Compiler.Recursion
import ForthJit.Proofs.Compiler.Arity
import ForthJit.Proofs.Compiler.Assigned
import ForthJit.Proofs.Compiler.Inlining
import ForthJit.Proofs.Dictionary.Validation
import ForthJit.Proofs.Machine.Constant
import ForthJit.Proofs.Machine.RoundTrip
import ForthJit.Proofs.Compiler.Frames
import ForthJit.Proofs.Memory.Allocation
import ForthJit.Proofs.Memory.Publication
import ForthJit.Proofs.Definition.Placement
import ForthJit.Proofs.Compiler.Listings
