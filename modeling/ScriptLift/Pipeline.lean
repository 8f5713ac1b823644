import ScriptLift.Compact.Unbounded
import ScriptLift.Lift
import ScriptLift.Source

namespace ScriptLift

/-- Lifts, compacts and renders a program, if lifting and compacting end. -/
def decompile (program : Program) (routines : Routines) (settings : Settings) :
    Option (Except Error String) := do
  match ← lift program routines settings.lift with
  | .ok tree =>
    let compacted ← optimize routines settings.compact tree
    return Source.render compacted.1 routines settings.source
  | .error e => return .error e

end ScriptLift
