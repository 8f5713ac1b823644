import ScriptLift.Lift.Machine
import ScriptLift.Loop

/-! Running the machine to its end.

Offsets are 32-bit words. In a script of more than half of them a jump ahead may wrap and lead back,
so a run need not end. -/
namespace ScriptLift.Machine

/-- The result of a run; there is none if the machine never rests. -/
def run (script : Script) (settings : LiftSettings) (m : Machine) : Option (Except Error Tree) :=
  loop (fun (m : Machine) => match m.tick script settings with
    | .error e => some (.inr (.error e))
    | .ok none => some (.inr (.ok m.tree))
    | .ok (some next) => some (.inl next)) m

end ScriptLift.Machine
