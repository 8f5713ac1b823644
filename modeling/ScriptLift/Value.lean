import ScriptLift.Text.Fixed
import ScriptLift.Text.Quoted

namespace ScriptLift

/-- Types of stack slots, routine arguments and results. -/
inductive ValueType where
  | void | int | float | string | object | vector | effect | event | location | talent | action
  deriving DecidableEq, Repr

/-- The word that declares the type in source. -/
def ValueType.keyword : ValueType → String
  | .void => "void"
  | .int => "int"
  | .float => "float"
  | .string => "string"
  | .object => "object"
  | .vector => "vector"
  | .effect => "effect"
  | .event => "event"
  | .location => "location"
  | .talent => "talent"
  | .action => "action"

/-- The capitalized name that messages use. -/
def ValueType.title : ValueType → String
  | .void => "Void"
  | .int => "Int"
  | .float => "Float"
  | .string => "String"
  | .object => "Object"
  | .vector => "Vector"
  | .effect => "Effect"
  | .event => "Event"
  | .location => "Location"
  | .talent => "Talent"
  | .action => "Action"

/-- Stack words a value takes; a deferred action is passed beside the stack. -/
def ValueType.words : ValueType → Nat
  | .void | .action => 0
  | .vector => 3
  | _ => 1

/-- A literal. Floats are binary32 bit patterns, so that equality of literals is exact. -/
inductive Literal where
  | int (value : Int32)
  | float (bits : UInt32)
  | string (text : String)
  | object (id : UInt32)
  deriving DecidableEq, Repr

def Literal.type : Literal → ValueType
  | .int _ => .int
  | .float _ => .float
  | .string _ => .string
  | .object _ => .object

/-- Arithmetic negation: integers wrap, a float only flips its sign bit. -/
def Literal.negate? : Literal → Option Literal
  | .int value => some (.int (-value))
  | .float bits => some (.float (bits ^^^ 0x80000000))
  | .string _ | .object _ => none

/-- Source text of the literal; the two reserved objects go by name. -/
def Literal.text : Literal → String
  | .int value => toString value.toInt
  | .float bits => Text.fixed bits
  | .string text => Text.quoted text
  | .object id =>
    if id = 0 then "OBJECT_SELF"
    else if id = 1 then "OBJECT_INVALID"
    else toString id.toNat

/-- Equality of the values meant: a NaN differs from itself and the two zeros agree. -/
def Literal.agrees : Literal → Literal → Bool
  | .float a, .float b =>
    match Text.Binary32.ofBits a, Text.Binary32.ofBits b with
    | .nan, _ | _, .nan => false
    | .finite 0 _, .finite 0 _ => true
    | _, _ => a == b
  | a, b => a == b

end ScriptLift
