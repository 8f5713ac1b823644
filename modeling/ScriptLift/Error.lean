import ScriptLift.Opcode
import ScriptLift.Tree.Node
import ScriptLift.Text.Hex

namespace ScriptLift

/-- Ways in which an instruction contradicts the stack it runs on. -/
inductive Inconsistency where
  | underflow
  | popTooMany (count size : Nat)
  | indexAbove (index size : Nat)
  | indexBelow (index : Int)
  /-- A word of the caller that does not lie below the stack at entry. -/
  | outerAboveEntry (index entered : Nat)
  | copyTooMany (count size : Nat)
  | keepsTooMany (first last size : Nat)
  | notFloat (component : String) (type : Option ValueType)
  | noLabel (target : Nat)
  | noLiteral
  | noJumpAfterState
  | noArgument (routine : String) (index : Nat)
  | noSavedAction (routine : String) (index : Nat)
  | emptyStructures
  deriving DecidableEq, Repr

def Inconsistency.message : Inconsistency → String
  | .underflow => "operand stack underflow"
  | .popTooMany count size =>
    "cannot pop " ++ toString count ++ " words from a stack of " ++ toString size
  | .indexAbove index size =>
    "stack index " ++ toString index ++ " out of bounds, stack size " ++ toString size
  | .indexBelow index => "stack index " ++ toString index ++ " out of bounds"
  | .outerAboveEntry index entered =>
    "word " ++ toString index ++ " is outer but not below the entry stack size " ++
      toString entered
  | .copyTooMany count size =>
    "cannot copy " ++ toString count ++ " words from a stack of " ++ toString size
  | .keepsTooMany first last size =>
    "kept words " ++ toString first ++ ".." ++ toString last ++
      " exceed the destructed region of " ++ toString size
  | .notFloat component type =>
    let shown :=
      match type with
      | some type => "Some(" ++ type.title ++ ")"
      | none => "None"
    "vector component " ++ component ++ " is " ++ shown ++ ", expected a float"
  | .noLabel target => "no label for jump target " ++ Text.offset target
  | .noLiteral => "missing constant operand"
  | .noJumpAfterState => "saved state is not followed by a jump"
  | .noArgument routine index => routine ++ " has no argument " ++ toString index
  | .noSavedAction routine index =>
    "no saved action for argument " ++ toString index ++ " of " ++ routine
  | .emptyStructures => "cannot compare empty structures"

/-- Why a node has no literal value. -/
inductive Unevaluated where
  | cyclic (slot : NodeId)
  | writtenBy (slot : NodeId) (writer : Kind)
  | writes (slot : NodeId) (count : Nat)
  | negating (value : Literal)
  | unsupported (kind : Kind)
  deriving DecidableEq, Repr

def Unevaluated.message : Unevaluated → String
  | .cyclic slot => "cyclic initializer through " ++ slot.name
  | .writtenBy slot writer => slot.name ++ " is written by " ++ writer.title
  | .writes slot count => slot.name ++ " has " ++ toString count ++ " writes"
  | .negating value => "negating " ++ value.text
  | .unsupported kind => "evaluating " ++ kind.title

/-- Everything that an operation of the library can answer instead of a result. -/
inductive Error where
  | unknownOpcode (code : UInt16)
  | unsupportedInstruction (offset : Nat) (opcode : Opcode)
  | unsupportedStackOffset (offset : Nat) (opcode : Opcode) (stack : Int32)
  | inconsistent (offset : Nat) (opcode : Opcode) (cause : Inconsistency)
  | invalidOffset (offset : Nat)
  | unknownRoutine (id : UInt16)
  | unevaluated (cause : Unevaluated)
  | recursionLimit (limit : Nat)
  /-- A block that could not be lifted, named by the entry of its subroutine and its start. -/
  | block (subroutine start : Nat) (source : Error)
  /-- The sink of the text is full. -/
  | sink
  deriving DecidableEq, Repr

namespace Error

def message : Error → String
  | .unknownOpcode code => "Unknown instruction code 0x" ++ Text.code code.toNat
  | .unsupportedInstruction offset opcode =>
    "Unsupported instruction " ++ opcode.mnemonic ++ " at " ++ Text.offset offset
  | .unsupportedStackOffset offset opcode stack =>
    "Unsupported stack offset " ++ toString stack.toInt ++ " for " ++ opcode.mnemonic ++ " at " ++
      Text.offset offset
  | .inconsistent offset opcode cause =>
    "Validation - " ++ opcode.mnemonic ++ " at " ++ Text.offset offset ++ ": " ++ cause.message
  | .invalidOffset offset => "No instruction at offset " ++ Text.offset offset
  | .unknownRoutine id => "Unknown routine " ++ toString id.toNat
  | .unevaluated cause => "Not implemented - " ++ cause.message
  | .recursionLimit limit => "Reach the maximum recursion level allowed - " ++ toString limit
  | .block subroutine start source =>
    "Error decompiling block at " ++ Text.offset start ++ " of function at " ++
      Text.offset subroutine ++ ": " ++ source.message
  | .sink => "an error occurred when formatting an argument"

/-- Whether callers pass the error on as it is. -/
def isFinal : Error → Bool
  | .recursionLimit _ | .block .. => true
  | _ => false

end Error

end ScriptLift
