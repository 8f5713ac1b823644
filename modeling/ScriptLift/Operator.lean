namespace ScriptLift

inductive UnaryOp where
  | negate | not | complement | increment | decrement
  deriving DecidableEq, Repr

namespace UnaryOp

def all : List UnaryOp := [.negate, .not, .complement, .increment, .decrement]

/-- Whether the operator writes its operand back. -/
def isStep : UnaryOp → Bool
  | .increment | .decrement => true
  | _ => false

def title : UnaryOp → String
  | .negate => "Negate"
  | .not => "Not"
  | .complement => "OnesComplement"
  | .increment => "Increment"
  | .decrement => "Decrement"

def symbol : UnaryOp → String
  | .negate => "-"
  | .not => "!"
  | .complement => "~"
  | .increment => "++"
  | .decrement => "--"

end UnaryOp

inductive BinaryOp where
  | assign | add | subtract | multiply | divide | modulo | logicalAnd | logicalOr
  | bitOr | bitXor | bitAnd | shiftLeft | shiftRight | shiftRightUnsigned
  | equal | notEqual | greaterOrEqual | greater | less | lessOrEqual
  deriving DecidableEq, Repr

namespace BinaryOp

def all : List BinaryOp := [
  .assign, .add, .subtract, .multiply, .divide, .modulo, .logicalAnd, .logicalOr,
  .bitOr, .bitXor, .bitAnd, .shiftLeft, .shiftRight, .shiftRightUnsigned,
  .equal, .notEqual, .greaterOrEqual, .greater, .less, .lessOrEqual
]

def title : BinaryOp → String
  | .assign => "Assign"
  | .add => "Add"
  | .subtract => "Subtract"
  | .multiply => "Multiply"
  | .divide => "Divide"
  | .modulo => "Modulo"
  | .logicalAnd => "LogicalAnd"
  | .logicalOr => "LogicalOr"
  | .bitOr => "BitwiseOr"
  | .bitXor => "BitwiseExclusiveOr"
  | .bitAnd => "BitwiseAnd"
  | .shiftLeft => "LeftShift"
  | .shiftRight => "RightShift"
  | .shiftRightUnsigned => "RightShiftUnsigned"
  | .equal => "Equal"
  | .notEqual => "NotEqual"
  | .greaterOrEqual => "GreaterThanOrEqual"
  | .greater => "GreaterThan"
  | .less => "LessThan"
  | .lessOrEqual => "LessThanOrEqual"

def symbol : BinaryOp → String
  | .assign => "="
  | .add => "+"
  | .subtract => "-"
  | .multiply => "*"
  | .divide => "/"
  | .modulo => "%"
  | .logicalAnd => "&&"
  | .logicalOr => "||"
  | .bitOr => "|"
  | .bitXor => "^"
  | .bitAnd => "&"
  | .shiftLeft => "<<"
  | .shiftRight => ">>"
  | .shiftRightUnsigned => ">>>"
  | .equal => "=="
  | .notEqual => "!="
  | .greaterOrEqual => ">="
  | .greater => ">"
  | .less => "<"
  | .lessOrEqual => "<="

end BinaryOp

end ScriptLift
