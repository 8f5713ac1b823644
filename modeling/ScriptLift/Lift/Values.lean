import ScriptLift.Lift.Operation
import ScriptLift.Lift.Workspace

/-! Literals, operators, engine calls and vectors.

A vector is three float words, x deepest. -/
namespace ScriptLift.Site

variable (site : Site)

def requireFloat (name : String) (slot : NodeId) : Lift Unit := do
  let ws ← get
  let type := (ws.tree.slot? slot).map (·.type)
  site.require (type = some .float) (.notFloat name type)

/-- Takes three words, which have to be floats. -/
def popVector : Lift NodeId := do
  let words ← site.popMany 3
  match words with
  | [x, y, z] =>
    site.requireFloat "x" x
    site.requireFloat "y" y
    site.requireFloat "z" z
    site.alloc (.vector x y z)
  | _ => site.fail .underflow

/-- Declares a component of `vector` and pushes it. -/
def pushComponent (vector : NodeId) (name : String) (index : Nat) : Lift Unit := do
  let component ← site.alloc (.slot { type := .float, suffix := some name })
  let value ← site.alloc (.component vector index)
  let assign ← site.alloc (.binary .assign component value true)
  site.emit assign
  Lift.push component

def pushVector (vector : NodeId) : Lift Unit := do
  site.pushComponent vector "x" 0
  site.pushComponent vector "y" 1
  site.pushComponent vector "z" 2

/-- Declares the result of an operation and pushes its words. -/
def produce (type : ValueType) (value : NodeId) : Lift Unit :=
  if type = .vector then do
    let result ← site.bindSlot { type := .vector } value
    site.pushVector result
  else site.declare type value

/-- Declares a word that is not initialized and pushes it. -/
def declareBare (type : ValueType) : Lift Unit := do
  let slot ← site.alloc (.slot { type })
  site.emit slot
  Lift.push slot

def reserve : Lift Unit := do
  let type ← Lift.consult site.ins.reservedType
  site.declareBare type

def load : Lift Unit :=
  match site.ins.value with
  | some value => do
    let literal ← site.alloc (.literal value)
    site.declare value.type literal
  | none => site.fail .noLiteral

def applyUnary (op : UnaryOp) : Lift Unit := do
  let operand ← site.pop
  let ws ← get
  let value ← site.alloc (.unary op operand)
  site.declare (ws.tree.type operand) value

def unary : Lift Unit := do
  let op ← Lift.consult site.ins.unaryOperator
  site.applyUnary op

/-- Takes two operands, the right one first. -/
def popPair : Shape → Lift (NodeId × NodeId)
  | .scalar => do
    let right ← site.pop
    let left ← site.pop
    return (left, right)
  | .vectorVector => do
    let right ← site.popVector
    let left ← site.popVector
    return (left, right)
  | .floatVector => do
    let right ← site.popVector
    let left ← site.pop
    return (left, right)
  | .vectorFloat => do
    let right ← site.pop
    let left ← site.popVector
    return (left, right)

def applyBinary (operation : BinaryOperation) : Lift Unit := do
  let pair ← site.popPair operation.shape
  let value ← site.alloc (.binary operation.op pair.1 pair.2 false)
  site.produce operation.result value

def binary : Lift Unit := do
  let operation ← Lift.consult site.ins.binaryOperation
  site.applyBinary operation

/-- One word of a comparison, joined to the answer so far. -/
def compareWord (relation join : BinaryOp) (result : NodeId) (index : Nat)
    (words : NodeId × NodeId) : Lift Unit := do
  let word ← site.alloc (.binary relation words.1 words.2 false)
  if index = 0 then
    let assign ← site.alloc (.binary .assign result word true)
    site.emit assign
  else
    let joined ← site.alloc (.binary join result word false)
    let assign ← site.alloc (.binary .assign result joined false)
    site.emit assign

def compareWith (relation join : BinaryOp) : Lift Unit := do
  let count := site.ins.size.toNat / 4
  site.require (count ≠ 0) .emptyStructures
  let right ← site.popMany count
  let left ← site.popMany count
  let result ← site.alloc (.slot { type := .int })
  (left.zip right).zipIdx.forM fun words =>
    site.compareWord relation join result words.2 words.1
  Lift.push result

def compare : Lift Unit :=
  site.compareWith site.ins.opcode.comparison.1 site.ins.opcode.comparison.2

/-- The saved state is passed as the block it resumes at. -/
def savedAction (routine : Routine) (index : Nat) : Lift NodeId := do
  let ws ← get
  match ws.context.savedAction with
  | some block => pure block
  | none => site.fail (.noSavedAction routine.name index)

def actionArgument (routine : Routine) (index : Nat) : Lift NodeId :=
  match routine.argumentType? index with
  | none => site.fail (.noArgument routine.name index)
  | some .vector => site.popVector
  | some .action => site.savedAction routine index
  | some _ => site.pop

/-- Takes the arguments in order, the first from the top of the stack. -/
def callRoutine (routine : Routine) : Lift Unit := do
  let arguments ← (List.range site.ins.arity.toNat).mapM (site.actionArgument routine)
  let action ← site.alloc (.action site.ins.routine arguments)
  if routine.result = .void then site.emit action else site.produce routine.result action

def action (routines : Routines) : Lift Unit :=
  match routines.get? site.ins.routine with
  | none => throw (.unknownRoutine site.ins.routine)
  | some routine => site.callRoutine routine

end ScriptLift.Site
