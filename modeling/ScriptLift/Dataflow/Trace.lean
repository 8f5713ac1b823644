import ScriptLift.Dataflow.Event
import ScriptLift.Total

/-! The events of a tree in the order of a walk through its blocks.

A block is walked once, for the first subroutine that reaches it; blocks found in it wait, the last
one found first. -/
namespace ScriptLift

namespace Role

/-- Arguments of an engine call may be actions that run later. -/
def isDeferring : Role → Bool
  | .actionArgument _ => true
  | _ => false

end Role

namespace Tree

variable (tree : Tree)

def innerOperands (id : NodeId) : List NodeId :=
  ((tree.node id).operands.map (·.2)).filter fun operand =>
    tree.kind operand ≠ .slot ∧ tree.kind operand ≠ .block

/-- Nodes of a statement, each before its operands, down to `depth` levels below it. -/
def within : Nat → NodeId → List NodeId
  | 0, id => [id]
  | depth + 1, id => id :: (tree.innerOperands id).flatMap (within depth)

/-- Nodes of the statements of a block, without those of nested blocks. -/
def nodesOf (block : NodeId) : List NodeId :=
  (tree.statements block).flatMap (tree.within tree.size)

/-- Blocks that are operands of `id`, with whether they run later. -/
def operandBlocks (deferred : Bool) (id : NodeId) : List (NodeId × Bool) :=
  ((tree.node id).operands.filter fun operand => tree.kind operand.2 = .block).map fun operand =>
    (operand.2, deferred || operand.1.isDeferring)

def nestedBlocks (deferred : Bool) (block : NodeId) : List (NodeId × Bool) :=
  (tree.nodesOf block).flatMap (tree.operandBlocks deferred)

end Tree

namespace Event

variable (tree : Tree) (routines : Routines)

/-- Blocks that walking the block with handle `i` finds, if it is still to be visited. -/
def share (visited : List NodeId) (i : Nat) : Nat :=
  if NodeId.mk i ∈ visited then 0 else (tree.nestedBlocks false ⟨i⟩).length

/-- Blocks that walking the blocks not yet visited may find. -/
def ahead (visited : List NodeId) : Nat := total (share tree visited) (List.range tree.size)

theorem share_cons_le (visited : List NodeId) (id : NodeId) (i : Nat) :
    share tree (id :: visited) i ≤ share tree visited i := by
  by_cases h : NodeId.mk i ∈ visited
  · simp [share, h]
  · by_cases hid : NodeId.mk i = id <;> simp [share, h, hid]

theorem length_nestedBlocks (deferred : Bool) (id : NodeId) :
    (tree.nestedBlocks deferred id).length = (tree.nestedBlocks false id).length := by
  simp [Tree.nestedBlocks, Tree.operandBlocks, List.length_flatMap]

theorem nestedBlocks_of_size_le {id : NodeId} (h : tree.size ≤ id.index) :
    tree.nestedBlocks false id = [] := by
  have hget : tree.get? id = none := by simpa [Tree.get?, Tree.size] using h
  simp [Tree.nestedBlocks, Tree.nodesOf, Tree.statements, Tree.node, Tree.get, hget]

theorem length_add_ahead_le {visited : List NodeId} {id : NodeId} (deferred : Bool)
    (h : id ∉ visited) :
    (tree.nestedBlocks deferred id).length + ahead tree (id :: visited) ≤ ahead tree visited := by
  rw [length_nestedBlocks]
  by_cases hlt : id.index < tree.size
  · have := add_total_le_total (f := share tree visited) (List.mem_range.2 hlt)
      (show share tree (id :: visited) id.index = 0 by simp [share])
      (share_cons_le tree visited id)
    have hshare : share tree visited id.index = (tree.nestedBlocks false id).length := by
      simp [share, h]
    simp only [ahead]
    omega
  · rw [nestedBlocks_of_size_le tree (Nat.le_of_not_lt hlt)]
    have := total_le_total (List.range tree.size) (share_cons_le tree visited id)
    simpa [ahead] using this

/-- Events of the blocks that wait, and the blocks visited by then. -/
def walk (sub : SubId) (pending : List (NodeId × Bool)) (visited : List NodeId) :
    List Event × List NodeId :=
  match pending with
  | [] => ([], visited)
  | (id, deferred) :: rest =>
    if _h : id ∈ visited then walk sub rest visited
    else
      let later := walk sub ((tree.nestedBlocks deferred id).reverse ++ rest) (id :: visited)
      (.block sub id :: (tree.nodesOf id).flatMap (ofNode tree routines sub deferred) ++ later.1,
        later.2)
termination_by pending.length + ahead tree visited
decreasing_by
  · simp only [List.length_cons]
    omega
  · have := length_add_ahead_le tree deferred ‹_›
    simp only [List.length_append, List.length_reverse, List.length_cons]
    omega

/-- Adds the events of one subroutine to those before. -/
def extend (state : List Event × List NodeId) (sub : SubId) : List Event × List NodeId :=
  let more := walk tree routines sub [((tree.sub sub).root, false)] state.2
  (state.1 ++ more.1, more.2)

/-- All events of the output. -/
def trace : List Event := (tree.order.foldl (extend tree routines) ([], [])).1

end Event

end ScriptLift
