import ScriptLift.Dataflow.Facts
import ScriptLift.Loop

namespace ScriptLift

namespace Tree

variable (tree : Tree)

/-- What lies directly below a node; blocks are opened on demand. -/
def below (descend : Bool) (id : NodeId) : List NodeId :=
  match tree.node id with
  | .block statements => if descend then statements else []
  | node => node.operands.map (·.2)

/-- Takes a node from the stack of those still to visit, and puts on it what the node holds. -/
def visitNext (descend : Bool) :
    Array NodeId × List NodeId → Array NodeId × List NodeId ⊕ List NodeId
  | (nodes, []) => .inr nodes.toList
  | (nodes, id :: pending) => .inl (nodes.push id, tree.below descend id ++ pending)

/-- A node and all below it, each before what it holds, if there is an end to them. Nothing keeps the
search from visiting a node again, so it does not return from a cycle. -/
def search? (descend : Bool) (id : NodeId) : Option (List NodeId) :=
  loop (fun state => some (tree.visitNext descend state)) (#[], [id])

/-- The same nodes, but only down to `depth` levels. -/
def subtreeTo (descend : Bool) : Nat → NodeId → List NodeId
  | 0, id => [id]
  | depth + 1, id => id :: (tree.below descend id).flatMap (subtreeTo descend depth)

/-- What a search answers that returns: no path of it is longer than the tree is large. -/
def subtree (descend : Bool) (id : NodeId) : List NodeId := tree.subtreeTo descend tree.size id

/-- Index of the first statement of `block` that holds `target`. -/
def statementHolding? (block target : NodeId) (descend : Bool) : Option Nat :=
  (tree.statements block).findIdx? fun statement => target ∈ tree.subtree descend statement

/-- Calls and steps do more than compute a value. -/
def hasEffect (id : NodeId) : Bool := (tree.kind id).isCall || (tree.kind id).isStep

def isBareReturn (id : NodeId) : Bool := tree.node id = .ret none

end Tree

/-- A tree and the facts last derived from it. -/
structure Draft where
  tree : Tree
  facts : Facts := {}
  deriving DecidableEq

def Draft.refresh (draft : Draft) (routines : Routines) : Draft :=
  { draft with facts := draft.facts.analyze draft.tree routines }

end ScriptLift
