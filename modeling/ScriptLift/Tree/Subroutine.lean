import ScriptLift.Text.Hex
import ScriptLift.Tree.Node

namespace ScriptLift

/-- A word of the caller that a subroutine uses. -/
structure Formal where
  slot : NodeId
  type : ValueType
  /-- In bytes, relative to the stack at entry. -/
  position : Int
  /-- The subroutine writes the word. -/
  pointer : Bool
  deriving DecidableEq, Repr

/-- Words are numbered from the top of the caller's stack. -/
def argumentNumber (position : Int) : Nat := position.natAbs / 4 - 1

def Formal.number (formal : Formal) : Nat := argumentNumber formal.position

structure Subroutine where
  /-- Empty for a subroutine that has no name of its own. -/
  name : String := ""
  start : Nat
  /-- The last offset reached. -/
  stop : Nat
  /-- The word nearest the top of the caller's stack first. -/
  formals : List Formal := []
  result : ValueType := .void
  root : NodeId
  deriving DecidableEq, Repr

namespace Subroutine

def contains (sub : Subroutine) (offset : Nat) : Bool := sub.start ≤ offset && offset ≤ sub.stop

/-- A subroutine without a name goes by its start. -/
def displayName (sub : Subroutine) : String :=
  if sub.name.isEmpty then "fun_" ++ Text.offset sub.start else sub.name

end Subroutine

/-- A global and the literal it starts with, if known. -/
structure Global where
  slot : NodeId
  value : Option Literal := none
  deriving DecidableEq, Repr

end ScriptLift
