import ScriptLift.Lift.Control
import ScriptLift.Lift.Values

namespace ScriptLift.Site

variable (site : Site)

def onward (handler : Lift Unit) : Lift Flow := do
  handler
  return .next site.ins.next

/-- A call of a subroutine that is not known yet changes nothing and asks for it. -/
def execute (script : Script) (callees : List (Nat × SubId)) : Lift Flow :=
  match site.ins.opcode.operation with
  | .nop => site.onward (pure ())
  | .ret => do
    site.ret
    return .stop
  | .jump => site.jump script.labels
  | .call =>
    match callees.lookup site.ins.target with
    | some callee => site.onward (site.call callee)
    | none => pure (.enter site.ins.target)
  | .branch => site.onward (site.branch script.labels)
  | .reserve => site.onward site.reserve
  | .load => site.onward site.load
  | .action => site.onward (site.action script.routines)
  | .copyDown => site.onward site.copyDown
  | .copyTop => site.onward site.copyTop
  | .release => site.onward site.release
  | .destruct => site.onward site.destruct
  | .step => site.onward site.step
  | .unary => site.onward site.unary
  | .compare => site.onward site.compare
  | .storeState => site.onward (site.storeState script.program)
  | .saveBase => site.onward Lift.saveBase
  | .restoreBase => site.onward Lift.restoreBase
  | .binary => site.onward site.binary

/-- Puts the label of this offset, if there is one, in front of the instruction. -/
def placeLabel (labels : List (Nat × NodeId)) : Lift Unit :=
  match labels.lookup site.ins.offset with
  | some label => site.emit label
  | none => pure ()

def visit (script : Script) (callees : List (Nat × SubId)) : Lift Flow := do
  site.placeLabel script.labels
  site.execute script callees

end ScriptLift.Site
