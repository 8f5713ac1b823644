import ScriptLift.Proofs.Lift.Faults
import ScriptLift.Proofs.Lift.Termination

/-! Strict and lenient lifting.

Both make the same moves up to the first block that cannot be lifted. There the strict one stops,
and the lenient one reports what the strict one answers, after which it only adds to its reports. -/
namespace ScriptLift

namespace Diagnostics

variable {old mid new : Diagnostics} {entry : Nat} {d : Diagnostic}

end Diagnostics

namespace Machine

variable {script : Script} {maxDepth count : Nat} {m last : Machine} {d : Diagnostic}

end Machine

/-- The start calls a subroutine that adds what is not there, and then does so itself. -/
def brokenScript : Program := .ofList "" [
  { opcode := .jsr, jump := 10 },
  { opcode := .addii },
  { opcode := .retn },
  { opcode := .addii },
  { opcode := .retn }
]

end ScriptLift
