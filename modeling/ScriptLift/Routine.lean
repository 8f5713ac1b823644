import ScriptLift.Value

namespace ScriptLift

/-- An argument; a pointer argument is written by the routine. -/
structure RoutineArgument where
  type : ValueType
  pointer : Bool := false
  deriving DecidableEq, Repr

structure Routine where
  name : String
  result : ValueType
  arguments : List RoutineArgument
  deriving DecidableEq, Repr

namespace Routine

def argumentType? (routine : Routine) (index : Nat) : Option ValueType :=
  (routine.arguments[index]?).map (·.type)

/-- Whether the routine writes through the argument at `index`. -/
def writes (routine : Routine) (index : Nat) : Bool :=
  match routine.arguments[index]? with
  | some argument => argument.pointer
  | none => false

end Routine

/-- Routines by number, each number once. -/
structure Routines where
  table : List (UInt16 × Routine) := []
  deriving DecidableEq, Repr

namespace Routines

/-- The last signature given for a number counts. -/
def insert (routines : Routines) (id : UInt16) (routine : Routine) : Routines :=
  { table := (id, routine) :: routines.table.filter (·.1 ≠ id) }

def get? (routines : Routines) (id : UInt16) : Option Routine := routines.table.lookup id

def size (routines : Routines) : Nat := routines.table.length

end Routines

end ScriptLift
