import ScriptLift.Proofs.Lift.Tables
import ScriptLift.Total

/-! What the machine of the game reads in an opcode.

The low byte of the code names the operation, the high byte the types of the operands. Lifting goes by
the mnemonic instead, in a dispatch and two tables. Both readings say the same. -/
namespace ScriptLift

/-- What the machine does at an instruction. -/
inductive Order where
  | idle
  /-- Moves about in the script, or moves the base of the globals. -/
  | control
  | branch
  | reserve
  | literal
  | routine
  | copyTop (base : Base)
  | copyDown (base : Base)
  | release
  | destruct
  | step (op : UnaryOp) (base : Base)
  | unary (op : UnaryOp)
  | binary (op : BinaryOp)
  | compare (relation join : BinaryOp)
  deriving DecidableEq, Repr

namespace Opcode

variable (op : Opcode)

/-- Equality of structures has a type byte of its own. -/
def order : Order :=
  match op.lowByte with
  | 0x00 | 0x2d => .idle
  | 0x01 => .copyDown .stack
  | 0x02 => .reserve
  | 0x03 => .copyTop .stack
  | 0x04 => .literal
  | 0x05 => .routine
  | 0x06 => .binary .logicalAnd
  | 0x07 => .binary .logicalOr
  | 0x08 => .binary .bitOr
  | 0x09 => .binary .bitXor
  | 0x0a => .binary .bitAnd
  | 0x0b => if op.highByte = 0x24 then .compare .equal .logicalAnd else .binary .equal
  | 0x0c => if op.highByte = 0x24 then .compare .notEqual .logicalOr else .binary .notEqual
  | 0x0d => .binary .greaterOrEqual
  | 0x0e => .binary .greater
  | 0x0f => .binary .less
  | 0x10 => .binary .lessOrEqual
  | 0x11 => .binary .shiftLeft
  | 0x12 => .binary .shiftRight
  | 0x13 => .binary .shiftRightUnsigned
  | 0x14 => .binary .add
  | 0x15 => .binary .subtract
  | 0x16 => .binary .multiply
  | 0x17 => .binary .divide
  | 0x18 => .binary .modulo
  | 0x19 => .unary .negate
  | 0x1a => .unary .complement
  | 0x1b => .release
  | 0x1f | 0x25 => .branch
  | 0x21 => .destruct
  | 0x22 => .unary .not
  | 0x23 => .step .decrement .stack
  | 0x24 => .step .increment .stack
  | 0x26 => .copyDown .globals
  | 0x27 => .copyTop .globals
  | 0x28 => .step .decrement .globals
  | 0x29 => .step .increment .globals
  | _ => .control

/-- The operand types that the type byte of a binary opcode stands for. -/
def operandTypes : List ValueType :=
  match op.highByte with
  | 0x20 => [.int, .int]
  | 0x21 => [.float, .float]
  | 0x22 => [.object, .object]
  | 0x23 => [.string, .string]
  | 0x25 => [.int, .float]
  | 0x26 => [.float, .int]
  | 0x30 => [.effect, .effect]
  | 0x31 => [.event, .event]
  | 0x32 => [.location, .location]
  | 0x33 => [.talent, .talent]
  | 0x3a => [.vector, .vector]
  | 0x3b => [.vector, .float]
  | 0x3c => [.float, .vector]
  | _ => []

end Opcode

/-- A value of this type lies on the stack. -/
def ValueType.IsPassed (type : ValueType) : Prop := type ≠ .void ∧ type ≠ .action

instance (type : ValueType) : Decidable type.IsPassed := inferInstanceAs (Decidable (_ ∧ _))

def Shape.ofTypes : ValueType → ValueType → Shape
  | .vector, .vector => .vectorVector
  | .vector, _ => .vectorFloat
  | _, .vector => .floatVector
  | _, _ => .scalar

namespace Instruction

/-- A handler, with the rows of its tables, does what the machine does. -/
inductive Renders (ins : Instruction) : Operation → Order → Prop
  | binary {op : BinaryOp} {left right result : ValueType} {shape : Shape} :
      ins.binaryOperation = .ok ⟨op, result, shape⟩ → ins.opcode.operandTypes = [left, right] →
      left.IsPassed → right.IsPassed → shape = .ofTypes left right →
      (result = .vector ↔ shape ≠ .scalar) → Renders ins .binary (.binary op)
  | unary {op : UnaryOp} : ins.unaryOperator = .ok op → Renders ins .unary (.unary op)
  | step {op : UnaryOp} : ins.unaryOperator = .ok op → Renders ins .step (.step op ins.opcode.base)
  | compare : Renders ins .compare
      (.compare ins.opcode.comparison.1 ins.opcode.comparison.2)
  | nop : Renders ins .nop .idle
  | ret : Renders ins .ret .control
  | jump : Renders ins .jump .control
  | call : Renders ins .call .control
  | branch : Renders ins .branch .branch
  | reserve : Renders ins .reserve .reserve
  | load : Renders ins .load .literal
  | action : Renders ins .action .routine
  | copyDown : Renders ins .copyDown (.copyDown ins.opcode.base)
  | copyTop : Renders ins .copyTop (.copyTop ins.opcode.base)
  | release : Renders ins .release .release
  | destruct : Renders ins .destruct .destruct
  | storeState : Renders ins .storeState .control
  | saveBase : Renders ins .saveBase .control
  | restoreBase : Renders ins .restoreBase .control

theorem renders (ins : Instruction) : ins.Renders ins.opcode.operation ins.opcode.order := by
  obtain ⟨opcode, _, _, _, _, _, _, _, _, _⟩ := ins
  cases opcode <;> dsimp only <;>
    first
    | exact .binary rfl (by dsimp only; rfl) (by decide) (by decide) rfl (by decide)
    | exact .unary rfl
    | exact .step rfl
    | exact .compare
    | exact .reserve | exact .load | exact .copyDown | exact .copyTop | exact .branch | exact .nop
    | exact .ret | exact .jump | exact .call | exact .action | exact .release | exact .destruct
    | exact .storeState | exact .saveBase | exact .restoreBase

theorem order_of_call {ins : Instruction} (h : ins.opcode.operation = .call) :
    ins.opcode.order = .control := by
  have hrenders := ins.renders
  rw [h] at hrenders
  generalize ins.opcode.order = order at hrenders ⊢
  cases hrenders
  rfl

end Instruction

end ScriptLift
