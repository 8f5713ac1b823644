import ScriptLift.Error
import ScriptLift.Instruction

namespace ScriptLift

/-- The handlers of instructions. -/
inductive Operation where
  | nop | ret | jump | call | branch | reserve | load | action | copyDown | copyTop | release
  | destruct | step | unary | compare | storeState | saveBase | restoreBase | binary
  deriving DecidableEq, Repr

/-- What has no handler of its own is taken for a binary operation. -/
def Opcode.operation : Opcode → Operation
  | .nop | .nop2 => .nop
  | .retn => .ret
  | .jmp => .jump
  | .jsr => .call
  | .jz | .jnz => .branch
  | .rsaddi | .rsaddf | .rsadds | .rsaddo | .rsaddeff | .rsaddevt | .rsaddloc | .rsaddtal => .reserve
  | .consti | .constf | .consts | .consto => .load
  | .action => .action
  | .cpdownsp | .cpdownbp => .copyDown
  | .cptopsp | .cptopbp => .copyTop
  | .movsp => .release
  | .destruct => .destruct
  | .incisp | .decisp | .incibp | .decibp => .step
  | .negi | .negf | .compi | .noti => .unary
  | .equaltt | .nequaltt => .compare
  | .storeState => .storeState
  | .savebp => .saveBase
  | .restorebp => .restoreBase
  | _ => .binary

/-- What a stack position is relative to. -/
inductive Base where
  | stack
  | globals
  deriving DecidableEq, Repr

def Opcode.base : Opcode → Base
  | .cpdownbp | .cptopbp | .incibp | .decibp => .globals
  | _ => .stack

/-- A branch is taken if the popped word stands in this relation to zero. -/
def Opcode.relation (opcode : Opcode) : BinaryOp := if opcode = .jz then .equal else .notEqual

/-- How the words of two structures are compared, and how the answers are joined. -/
def Opcode.comparison (opcode : Opcode) : BinaryOp × BinaryOp :=
  if opcode = .equaltt then (.equal, .logicalAnd) else (.notEqual, .logicalOr)

/-- How two operands lie on the stack, the left one deeper. -/
inductive Shape where
  | scalar | vectorVector | floatVector | vectorFloat
  deriving DecidableEq, Repr

structure BinaryOperation where
  op : BinaryOp
  result : ValueType
  shape : Shape := .scalar
  deriving DecidableEq, Repr

namespace Instruction

def unsupported (ins : Instruction) : Error := .unsupportedInstruction ins.offset ins.opcode

/-- Operator, result and layout of a binary instruction; comparisons of structures are none. -/
def binaryOperation (ins : Instruction) : Except Error BinaryOperation :=
  match ins.opcode with
  | .logandii => .ok ⟨.logicalAnd, .int, .scalar⟩
  | .logorii => .ok ⟨.logicalOr, .int, .scalar⟩
  | .incorii => .ok ⟨.bitOr, .int, .scalar⟩
  | .excorii => .ok ⟨.bitXor, .int, .scalar⟩
  | .boolandii => .ok ⟨.bitAnd, .int, .scalar⟩
  | .equalii | .equalff | .equalss | .equaloo
  | .equaleffeff | .equalevtevt | .equallocloc | .equaltaltal => .ok ⟨.equal, .int, .scalar⟩
  | .nequalii | .nequalff | .nequalss | .nequaloo
  | .nequaleffeff | .nequalevtevt | .nequallocloc | .nequaltaltal =>
    .ok ⟨.notEqual, .int, .scalar⟩
  | .geqii | .geqff => .ok ⟨.greaterOrEqual, .int, .scalar⟩
  | .gtii | .gtff => .ok ⟨.greater, .int, .scalar⟩
  | .ltii | .ltff => .ok ⟨.less, .int, .scalar⟩
  | .leqii | .leqff => .ok ⟨.lessOrEqual, .int, .scalar⟩
  | .shleftii => .ok ⟨.shiftLeft, .int, .scalar⟩
  | .shrightii => .ok ⟨.shiftRight, .int, .scalar⟩
  | .ushrightii => .ok ⟨.shiftRightUnsigned, .int, .scalar⟩
  | .addii => .ok ⟨.add, .int, .scalar⟩
  | .addif | .addfi | .addff => .ok ⟨.add, .float, .scalar⟩
  | .addss => .ok ⟨.add, .string, .scalar⟩
  | .addvv => .ok ⟨.add, .vector, .vectorVector⟩
  | .subii => .ok ⟨.subtract, .int, .scalar⟩
  | .subif | .subfi | .subff => .ok ⟨.subtract, .float, .scalar⟩
  | .subvv => .ok ⟨.subtract, .vector, .vectorVector⟩
  | .mulii => .ok ⟨.multiply, .int, .scalar⟩
  | .mulif | .mulfi | .mulff => .ok ⟨.multiply, .float, .scalar⟩
  | .mulvf => .ok ⟨.multiply, .vector, .vectorFloat⟩
  | .mulfv => .ok ⟨.multiply, .vector, .floatVector⟩
  | .divii => .ok ⟨.divide, .int, .scalar⟩
  | .divif | .divfi | .divff => .ok ⟨.divide, .float, .scalar⟩
  | .divvf => .ok ⟨.divide, .vector, .vectorFloat⟩
  | .divfv => .ok ⟨.divide, .vector, .floatVector⟩
  | .modii => .ok ⟨.modulo, .int, .scalar⟩
  | _ => .error ins.unsupported

/-- Operator of a unary instruction, in place or not. -/
def unaryOperator (ins : Instruction) : Except Error UnaryOp :=
  match ins.opcode with
  | .negi | .negf => .ok .negate
  | .compi => .ok .complement
  | .noti => .ok .not
  | .incisp | .incibp => .ok .increment
  | .decisp | .decibp => .ok .decrement
  | _ => .error ins.unsupported

/-- Type of the word that an instruction reserves. -/
def reservedType (ins : Instruction) : Except Error ValueType :=
  match ins.opcode with
  | .rsaddi => .ok .int
  | .rsaddf => .ok .float
  | .rsadds => .ok .string
  | .rsaddo => .ok .object
  | .rsaddeff => .ok .effect
  | .rsaddevt => .ok .event
  | .rsaddloc => .ok .location
  | .rsaddtal => .ok .talent
  | _ => .error ins.unsupported

end Instruction

end ScriptLift
