import ScriptLift.Routine
import ScriptLift.Tree

namespace ScriptLift

/-- A node that reads a slot, and where in it the slot stands. -/
structure Read where
  node : NodeId
  role : Role
  deriving DecidableEq, Repr

/-- A node that writes a slot; only an assignment says what. -/
structure Write where
  node : NodeId
  value : Option NodeId
  deriving DecidableEq, Repr

inductive Event where
  | read (slot : NodeId) (read : Read)
  | write (slot : NodeId) (write : Write)
  | goto (label node : NodeId)
  | call (callee : SubId) (node : NodeId)
  | ret (sub : SubId) (node : NodeId)
  | block (sub : SubId) (node : NodeId)
  deriving DecidableEq, Repr

namespace Event

variable (tree : Tree) (routines : Routines)

/-- Whether the argument at `index` of a call is written by the callee. -/
def writesArgument (node : Node) (index : Nat) : Bool :=
  match node with
  | .call callee _ =>
    match (tree.sub callee).formals[index]? with
    | some formal => formal.pointer
    | none => false
  | .action routine _ =>
    match routines.get? routine with
    | some routine => routine.writes index
    | none => false
  | _ => false

/-- What a node does to a slot that is its operand at `role`. -/
def ofSlot (id : NodeId) (role : Role) (slot : NodeId) : List Event :=
  match tree.node id, role with
  | .binary .assign _ right _, .left => [.write slot ⟨id, some right⟩]
  | .unary op _, .operand =>
    if op.isStep then [.read slot ⟨id, role⟩, .write slot ⟨id, none⟩]
    else [.read slot ⟨id, role⟩]
  | .call callee arguments, .callArgument index =>
    if writesArgument tree routines (.call callee arguments) index then
      [.read slot ⟨id, role⟩, .write slot ⟨id, none⟩]
    else [.read slot ⟨id, role⟩]
  | .action routine arguments, .actionArgument index =>
    if writesArgument tree routines (.action routine arguments) index then
      [.read slot ⟨id, role⟩, .write slot ⟨id, none⟩]
    else [.read slot ⟨id, role⟩]
  | _, _ => [.read slot ⟨id, role⟩]

/-- What a node does by itself; returns of a deferred action are not those of its subroutine. -/
def ofControl (sub : SubId) (deferred : Bool) (id : NodeId) : List Event :=
  match tree.node id with
  | .ret _ => if deferred then [] else [.ret sub id]
  | .call callee _ => [.call callee id]
  | .goto label => [.goto label id]
  | _ => []

/-- All that a node does, its slots in the order of its operands. -/
def ofNode (sub : SubId) (deferred : Bool) (id : NodeId) : List Event :=
  ofControl tree sub deferred id ++
    ((tree.node id).operands.filter (tree.isSlot ·.2)).flatMap fun operand =>
      ofSlot tree routines id operand.1 operand.2

end Event

end ScriptLift
