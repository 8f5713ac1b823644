import ScriptLift.Dataflow.Facts
import ScriptLift.Error

namespace ScriptLift

namespace Facts

variable (facts : Facts) (tree : Tree)

/-- Follows a slot to its only assignment and a negation to its operand, over at most `steps` nodes.
A slot met twice has no value. -/
def evaluateWithin : Nat → List NodeId → NodeId → Except Unevaluated Literal
  | 0, _, id => .error (.unsupported (tree.kind id))
  | steps + 1, seen, id =>
    match tree.node id with
    | .literal value => .ok value
    | .slot _ =>
      if id ∈ seen then .error (.cyclic id)
      else
        match facts.writesOf id with
        | [write] =>
          match write.value with
          | some value => evaluateWithin steps (id :: seen) value
          | none => .error (.writtenBy id (tree.kind write.node))
        | writes => .error (.writes id writes.length)
    | .unary .negate operand =>
      match evaluateWithin steps seen operand with
      | .ok value =>
        match value.negate? with
        | some negated => .ok negated
        | none => .error (.negating value)
      | .error cause => .error cause
    | _ => .error (.unsupported (tree.kind id))

/-- The literal that a node stands for. Between two of the slots on the way lie no more nodes than
the tree has, and no slot is passed twice. -/
def evaluate (id : NodeId) : Except Unevaluated Literal :=
  facts.evaluateWithin tree ((tree.size + 1) * (tree.size + 1) + 1) [] id

end Facts

end ScriptLift
