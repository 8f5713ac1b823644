import ScriptLift.Lift.Execute

namespace ScriptLift

namespace Instruction

/-- A table knows the instruction exactly if it is `consulted` for it. -/
structure Covered {α : Type} (ins : Instruction) (row : Except Error α) (consulted : Prop) :
    Prop where
  known : consulted → ∃ a, row = .ok a
  refused : ¬consulted → row = .error ins.unsupported

/-- No handler finds its table without a row, and no table knows more than it is asked for. -/
structure Tabled (ins : Instruction) : Prop where
  binary : ins.Covered ins.binaryOperation (ins.opcode.operation = .binary)
  unary : ins.Covered ins.unaryOperator
    (ins.opcode.operation = .unary ∨ ins.opcode.operation = .step)
  reserved : ins.Covered ins.reservedType (ins.opcode.operation = .reserve)

theorem tabled (ins : Instruction) : ins.Tabled := by
  obtain ⟨opcode, _, _, _, _, _, _, _, _, _⟩ := ins
  constructor <;> constructor <;> cases opcode <;>
    simp [binaryOperation, unaryOperator, reservedType, Opcode.operation]

variable {ins : Instruction}

theorem binaryOperation_ne_assign {operation : BinaryOperation}
    (h : ins.binaryOperation = .ok operation) : operation.op ≠ .assign := by
  obtain ⟨opcode, _, _, _, _, _, _, _, _, _⟩ := ins
  cases opcode <;> cases h <;> decide

/-- An operator steps its operand exactly if it is looked up for a step. -/
theorem unaryOperator_isStep {op : UnaryOp} (h : ins.unaryOperator = .ok op) :
    op.isStep = decide (ins.opcode.operation = .step) := by
  obtain ⟨opcode, _, _, _, _, _, _, _, _, _⟩ := ins
  cases opcode <;> cases h <;> rfl

end Instruction

namespace Opcode

theorem relation_cases (opcode : Opcode) :
    opcode.relation = .equal ∨ opcode.relation = .notEqual := by
  unfold relation
  split <;> simp

theorem comparison_cases (opcode : Opcode) :
    opcode.comparison = (.equal, .logicalAnd) ∨ opcode.comparison = (.notEqual, .logicalOr) := by
  unfold comparison
  split <;> simp

theorem comparison_ne_assign (opcode : Opcode) :
    opcode.comparison.1 ≠ .assign ∧ opcode.comparison.2 ≠ .assign := by
  rcases opcode.comparison_cases with heq | heq <;> simp [heq]

end Opcode

namespace Site

variable {site : Site}

theorem binary_eq (hop : site.ins.opcode.operation = .binary) :
    ∃ operation, site.ins.binaryOperation = .ok operation ∧
      site.binary = site.applyBinary operation := by
  obtain ⟨operation, hrow⟩ := site.ins.tabled.binary.known hop
  exact ⟨operation, hrow, by rw [binary, hrow]; rfl⟩

theorem unary_eq (hop : site.ins.opcode.operation = .unary) :
    ∃ op, site.ins.unaryOperator = .ok op ∧ site.unary = site.applyUnary op := by
  obtain ⟨op, hrow⟩ := site.ins.tabled.unary.known (.inl hop)
  exact ⟨op, hrow, by rw [unary, hrow]; rfl⟩

theorem step_eq (hop : site.ins.opcode.operation = .step) :
    ∃ op, site.ins.unaryOperator = .ok op ∧ site.step = site.applyStep op := by
  obtain ⟨op, hrow⟩ := site.ins.tabled.unary.known (.inr hop)
  exact ⟨op, hrow, by rw [step, hrow]; rfl⟩

theorem reserve_eq (hop : site.ins.opcode.operation = .reserve) :
    ∃ type, site.ins.reservedType = .ok type ∧ site.reserve = site.declareBare type := by
  obtain ⟨type, hrow⟩ := site.ins.tabled.reserved.known hop
  exact ⟨type, hrow, by rw [reserve, hrow]; rfl⟩

end Site

end ScriptLift
