import ScriptLift.Compact.Draft

namespace ScriptLift

/-- A value that moves from its declaration into its only use. -/
structure Inlining where
  /-- Where the declaration stands. -/
  index : Nat
  slot : NodeId
  value : NodeId
  read : Read
  /-- Where the use stands. -/
  consumer : Nat
  deriving DecidableEq, Repr

/-- Statements are named by their index in the block. -/
inductive Rewrite where
  /-- Drops a declaration that nothing uses. -/
  | dropDeclaration (index : Nat)
  /-- Lets the assignment declare its left side. -/
  | mergeDeclaration (index : Nat) (assign : NodeId)
  /-- Puts the only call of a deferred action in place of its block. -/
  | collapseAction (action : NodeId) (index : Nat) (call : NodeId)
  /-- Assigns the result of a call. -/
  | assignCall (index : Nat) (call slot : NodeId)
  | inlineValue (move : Inlining)
  /-- Puts a vector in place of its recomposition. -/
  | collapseVector (node : NodeId) (role : Role) (source : NodeId)
  /-- Drops an assignment that nothing reads. -/
  | dropAssignment (index : Nat)
  /-- Keeps the value of such an assignment for what it does. -/
  | keepValue (index : Nat) (value : NodeId)
  | dropLabel (index : Nat)
  deriving DecidableEq, Repr

namespace Tree

def eraseStatement (tree : Tree) (block : NodeId) (index : Nat) : Tree :=
  tree.modifyStatements block (·.eraseIdx index)

def setStatement (tree : Tree) (block : NodeId) (index : Nat) (statement : NodeId) : Tree :=
  tree.modifyStatements block (·.set index statement)

end Tree

/-- The block after the rewrite; the facts are those from before it. -/
def Rewrite.apply (block : NodeId) (draft : Draft) : Rewrite → Draft
  | .dropDeclaration index | .dropAssignment index | .dropLabel index =>
    { draft with tree := draft.tree.eraseStatement block index }
  | .mergeDeclaration index assign =>
    { draft with tree := (draft.tree.setDeclares assign true).eraseStatement block index }
  | .collapseAction action index call =>
    { draft with tree := draft.tree.setOperand action (.actionArgument index) call }
  | .assignCall index call slot =>
    let assign := draft.tree.nextId
    let node : Node := .binary .assign slot call false
    { tree := (draft.tree.alloc (draft.tree.offset call) node).setStatement block index assign
      facts := draft.facts.dropDestination call }
  | .inlineValue move =>
    { draft with
      tree := (draft.tree.setOperand move.read.node move.read.role move.value).eraseStatement block
        move.index }
  | .collapseVector node role source =>
    { draft with tree := draft.tree.setOperand node role source }
  | .keepValue index value => { draft with tree := draft.tree.setStatement block index value }

end ScriptLift
