import ScriptLift.Operator
import ScriptLift.Value

namespace ScriptLift

/-- Handle of a node. -/
structure NodeId where
  index : Nat
  deriving DecidableEq, Hashable, Repr

def NodeId.name (id : NodeId) : String := "e" ++ toString id.index

/-- Handle of a subroutine. -/
structure SubId where
  index : Nat
  deriving DecidableEq, Hashable, Repr

/-- Who owns the storage of a slot. -/
inductive Storage where
  /-- The subroutine that declares it. -/
  | own
  /-- The caller. -/
  | argument
  | global
  /-- An argument that turned out to be the result. -/
  | result
  deriving DecidableEq, Repr

/-- A named place, standing for one stack word or for a vector. -/
structure Slot where
  type : ValueType
  storage : Storage := .own
  /-- Tells slots of one instruction apart. -/
  suffix : Option String := none
  /-- Position of an argument in bytes, relative to the stack at entry. -/
  position : Option Int := none
  /-- The subroutine reads the word of its caller. -/
  outerRead : Bool := false
  /-- The subroutine writes the word of its caller. -/
  outerModified : Bool := false
  deriving DecidableEq, Repr

/-- Position of an operand in its node. -/
inductive Role where
  | actionArgument (index : Nat)
  | callArgument (index : Nat)
  | operand
  | left
  | right
  | value
  | test
  | branch
  | component (index : Nat)
  | source
  deriving DecidableEq, Repr

inductive Node where
  | block (statements : List NodeId)
  | literal (value : Literal)
  | slot (slot : Slot)
  | label
  | goto (label : NodeId)
  | ret (value : Option NodeId)
  /-- Runs the branch if the test holds, then goes on behind it. -/
  | conditional (test branch : NodeId)
  /-- Call of an engine routine; a deferred action is an argument that is a block. -/
  | action (routine : UInt16) (arguments : List NodeId)
  | call (callee : SubId) (arguments : List NodeId)
  | vector (x y z : NodeId)
  | component (whole : NodeId) (index : Nat)
  | unary (op : UnaryOp) (operand : NodeId)
  /-- An assignment may declare its left side. -/
  | binary (op : BinaryOp) (left right : NodeId) (declares : Bool)
  deriving DecidableEq, Repr

/-- What a node is, operators told apart. -/
inductive Kind where
  | block | literal | slot | label | goto | ret | conditional | action | call | vector | component
  | unary (op : UnaryOp)
  | binary (op : BinaryOp)
  deriving DecidableEq, Repr

namespace Kind

def all : List Kind :=
  [.block, .literal, .slot, .label, .goto, .ret, .conditional, .action, .call, .vector,
    .component] ++ UnaryOp.all.map .unary ++ BinaryOp.all.map .binary

def title : Kind → String
  | .block => "Block"
  | .literal => "Constant"
  | .slot => "Parameter"
  | .label => "Label"
  | .goto => "Goto"
  | .ret => "Return"
  | .conditional => "Conditional"
  | .action => "Action"
  | .call => "Call"
  | .vector => "Vector"
  | .component => "VectorIndex"
  | .unary op => op.title
  | .binary op => op.title

def isUnary : Kind → Bool
  | .unary _ => true
  | _ => false

def isBinary : Kind → Bool
  | .binary _ => true
  | _ => false

def isStep : Kind → Bool
  | .unary op => op.isStep
  | _ => false

def isCall : Kind → Bool
  | .action | .call => true
  | _ => false

end Kind

namespace Node

def kind : Node → Kind
  | .block _ => .block
  | .literal _ => .literal
  | .slot _ => .slot
  | .label => .label
  | .goto _ => .goto
  | .ret _ => .ret
  | .conditional _ _ => .conditional
  | .action _ _ => .action
  | .call _ _ => .call
  | .vector _ _ _ => .vector
  | .component _ _ => .component
  | .unary op _ => .unary op
  | .binary op _ _ _ => .binary op

/-- Operands in order. The statements of a block and the target of a goto are none. -/
def operands : Node → List (Role × NodeId)
  | .block _ | .literal _ | .slot _ | .label | .goto _ | .ret none => []
  | .ret (some value) => [(.value, value)]
  | .conditional test branch => [(.test, test), (.branch, branch)]
  | .action _ arguments => arguments.mapIdx fun i a => (.actionArgument i, a)
  | .call _ arguments => arguments.mapIdx fun i a => (.callArgument i, a)
  | .vector x y z => [(.component 0, x), (.component 1, y), (.component 2, z)]
  | .component whole _ => [(.source, whole)]
  | .unary _ operand => [(.operand, operand)]
  | .binary _ left right _ => [(.left, left), (.right, right)]

/-- Puts `id` in place of the operand at `role`, if there is one. -/
def setOperand? (node : Node) (role : Role) (id : NodeId) : Option Node :=
  match node, role with
  | .ret (some _), .value => some (.ret (some id))
  | .conditional _ branch, .test => some (.conditional id branch)
  | .conditional test _, .branch => some (.conditional test id)
  | .action routine arguments, .actionArgument i =>
    if i < arguments.length then some (.action routine (arguments.set i id)) else none
  | .call callee arguments, .callArgument i =>
    if i < arguments.length then some (.call callee (arguments.set i id)) else none
  | .vector _ y z, .component 0 => some (.vector id y z)
  | .vector x _ z, .component 1 => some (.vector x id z)
  | .vector x y _, .component 2 => some (.vector x y id)
  | .component _ index, .source => some (.component id index)
  | .unary op _, .operand => some (.unary op id)
  | .binary op _ right declares, .left => some (.binary op id right declares)
  | .binary op left _ declares, .right => some (.binary op left id declares)
  | _, _ => none

def isDeclaration : Node → Bool
  | .binary .assign _ _ declares => declares
  | _ => false

end Node

/-- A node and the offset of the instruction it comes from. -/
structure Expr where
  offset : Nat
  node : Node
  deriving DecidableEq, Repr

end ScriptLift
