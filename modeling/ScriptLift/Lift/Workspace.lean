import ScriptLift.Lift.Context
import ScriptLift.Program
import ScriptLift.Routine
import ScriptLift.Tree

/-! What an instruction may change while it is lifted.

A failing instruction keeps the nodes that it allocated before it failed, so all handlers run in a
state that outlives the failure. -/
namespace ScriptLift

/-- What stays fixed while a script is lifted. -/
structure Script where
  program : Program
  routines : Routines
  /-- Label nodes by offset. -/
  labels : List (Nat × NodeId) := []

/-- Arguments found so far, by position, the one nearest the caller's stack top first. -/
abbrev Outer := List (Int × NodeId)

def Outer.insert (position : Int) (slot : NodeId) : Outer → Outer
  | [] => [(position, slot)]
  | entry :: rest =>
    if entry.1 < position then (position, slot) :: entry :: rest
    else entry :: Outer.insert position slot rest

/-- Blocks of a subroutine by offset and stack depth. -/
abbrev Blocks := List ((Nat × Nat) × NodeId)

/-- A block still to be filled, from the offset `start` on. -/
structure Job where
  block : NodeId
  start : Nat
  context : Context
  deriving DecidableEq

structure Workspace where
  tree : Tree
  context : Context
  outer : Outer := []
  blocks : Blocks := []
  /-- The block that this instruction asked for, if it is new. -/
  spawned : Option Job := none
  deriving DecidableEq

abbrev Lift := EStateM Error Workspace

/-- Where an instruction stands. -/
structure Site where
  ins : Instruction
  /-- Entry of the enclosing subroutine. -/
  entry : Nat
  block : NodeId
  /-- Offset at which the block starts. -/
  start : Nat

namespace Lift

def consult {α : Type} : Except Error α → Lift α
  | .ok row => pure row
  | .error e => throw e

def push (slot : NodeId) : Lift Unit :=
  modify fun ws => { ws with context := ws.context.push slot }

def pushStatement (block statement : NodeId) : Lift Unit :=
  modify fun ws => { ws with tree := ws.tree.pushStatement block statement }

/-- The block at `offset` for the present stack depth; a new one is also asked for. -/
def schedule (offset : Nat) : Lift NodeId := fun ws =>
  let key := (offset, ws.context.depth)
  match ws.blocks.lookup key with
  | some block => .ok block ws
  | none =>
    let block := ws.tree.nextId
    .ok block { ws with
      tree := ws.tree.alloc offset (.block [])
      blocks := (key, block) :: ws.blocks
      spawned := some ⟨block, offset, ws.context⟩ }

end Lift

namespace Site

variable (site : Site)

def fail {α : Type} (cause : Inconsistency) : Lift α :=
  throw (.inconsistent site.ins.offset site.ins.opcode cause)

def require (condition : Bool) (cause : Inconsistency) : Lift Unit :=
  if condition then pure () else site.fail cause

def check {α : Type} : Except Inconsistency α → Lift α
  | .ok a => pure a
  | .error cause => site.fail cause

def alloc (node : Node) : Lift NodeId := fun ws =>
  .ok ws.tree.nextId { ws with tree := ws.tree.alloc site.ins.offset node }

def emit (statement : NodeId) : Lift Unit := Lift.pushStatement site.block statement

def popMany (count : Nat) : Lift (List NodeId) := do
  let ws ← get
  let popped ← site.check (ws.context.popMany count)
  set { ws with context := popped.2 }
  return popped.1.map (·.slot)

def pop : Lift NodeId := do
  let ws ← get
  let popped ← site.check ws.context.pop
  set { ws with context := popped.2 }
  return popped.1.slot

/-- Declares a new slot that starts with `value`. -/
def bindSlot (slot : Slot) (value : NodeId) : Lift NodeId := do
  let target ← site.alloc (.slot slot)
  let assign ← site.alloc (.binary .assign target value true)
  site.emit assign
  return target

/-- Declares a word that starts with `value` and pushes it. -/
def declare (type : ValueType) (value : NodeId) : Lift Unit := do
  let slot ← site.bindSlot { type } value
  Lift.push slot

end Site

end ScriptLift
