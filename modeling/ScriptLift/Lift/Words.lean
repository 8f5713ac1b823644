import ScriptLift.Lift.Operation
import ScriptLift.Lift.Workspace

namespace ScriptLift

/-- How a subroutine uses a word. -/
inductive Access where
  | read | modify | update
  deriving DecidableEq

def Access.reads : Access → Bool
  | .read | .update => true
  | .modify => false

def Access.modifies : Access → Bool
  | .modify | .update => true
  | .read => false

def Slot.mark (slot : Slot) (how : Access) : Slot :=
  { slot with
    outerRead := slot.outerRead || how.reads
    outerModified := slot.outerModified || how.modifies }

namespace Lift

/-- All words on the stack become globals. -/
def saveBase : Lift Unit :=
  modify fun ws => { ws with
    tree := ws.context.stack.foldl
      (fun tree word => tree.modifySlot word.slot fun s => { s with storage := .global }) ws.tree
    context := { ws.context with
      globals := ws.context.depth
      previousGlobals := ws.context.globals } }

def restoreBase : Lift Unit :=
  modify fun ws =>
    { ws with context := { ws.context with globals := ws.context.previousGlobals } }

/-- Gives `left` the type of `right` if both are slots. -/
def retype (left right : NodeId) : Lift Unit :=
  modify fun ws =>
    match ws.tree.slot? right with
    | some source =>
      { ws with tree := ws.tree.modifySlot left fun s => { s with type := source.type } }
    | none => ws

end Lift

namespace Site

variable (site : Site)

def rejectStackOffset {α : Type} : Lift α :=
  throw (.unsupportedStackOffset site.ins.offset site.ins.opcode site.ins.stack)

/-- Only positions below the base are meaningful. -/
def below : Lift Int :=
  if site.ins.stack < 0 then pure site.ins.stack.toInt else site.rejectStackOffset

/-- Index of the word that the instruction addresses. -/
def addressed : Lift Nat := do
  let position ← site.below
  let ws ← get
  let size :=
    match site.ins.opcode.base with
    | .stack => ws.context.depth
    | .globals => ws.context.globals
  site.check (Context.relativeIndex size position)

/-- The slot of the argument at `position`, made at its first use. -/
def argument (position : Int) (type : ValueType) (how : Access) : Lift NodeId := fun ws =>
  match ws.outer.lookup position with
  | some slot => .ok slot { ws with tree := ws.tree.modifySlot slot (·.mark how) }
  | none =>
    let slot := ws.tree.nextId
    let fresh : Slot := { type, storage := .argument, position := some position }
    .ok slot { ws with
      tree := ws.tree.alloc site.ins.offset (.slot (fresh.mark how))
      outer := Outer.insert position slot ws.outer }

/-- The slot through which the word at `index` is used: its own, or an argument if a caller pushed
it. Positions of arguments are negative 32-bit numbers. -/
def access (index : Nat) (how : Access) : Lift NodeId := do
  let ws ← get
  let word ← site.check (ws.context.word index)
  if ws.context.isOuter word (ws.tree.storage? word.slot = some .global) then
    let entered := ws.context.top.entered
    let position : Int := ((index : Int) - entered) * 4
    if -0x80000000 ≤ position ∧ position < 0 then
      site.argument position (ws.tree.type word.slot) how
    else site.fail (.outerAboveEntry index entered)
  else pure word.slot

/-- Assigns the word `i` below the top to the word `i` below the last one addressed, whose type
follows. -/
def copyWordDown (start count i : Nat) : Lift Unit := do
  let ws ← get
  let right ← site.check (ws.context.word (ws.context.depth - 1 - i))
  let left ← site.access (start + count - 1 - i) .modify
  Lift.retype left right.slot
  let assign ← site.alloc (.binary .assign left right.slot false)
  site.emit assign

def copyDown : Lift Unit := do
  let start ← site.addressed
  let count := site.ins.size.toNat / 4
  let ws ← get
  site.require (count ≤ ws.context.depth) (.copyTooMany count ws.context.depth)
  (List.range count).forM fun i => site.copyWordDown start count i

/-- Pushes a copy of the word at `start + i`; the stack grows while its words are read. -/
def copyWordTop (start count i : Nat) : Lift Unit := do
  let source ← site.access (start + i) .read
  let ws ← get
  let suffix := if 1 < count then some (toString i) else none
  let copy ← site.bindSlot { type := ws.tree.type source, suffix } source
  Lift.push copy

def copyTop : Lift Unit := do
  let start ← site.addressed
  let count := site.ins.size.toNat / 4
  (List.range count).forM fun i => site.copyWordTop start count i

def release : Lift Unit := do
  let position ← site.below
  discard <| site.popMany (position.natAbs / 4)

/-- Destroys the words at the top, `size` of them, except for those kept. -/
def destructWords (size first last : Nat) : Lift Unit := do
  site.require (last ≤ size) (.keepsTooMany first last size)
  let ws ← get
  let popped ← site.check (ws.context.popMany size)
  let kept := (popped.1.take last).drop first
  set { ws with context := { popped.2 with stack := kept.reverse ++ popped.2.stack } }

def destruct : Lift Unit :=
  if site.ins.stack < 0 then site.rejectStackOffset
  else
    let first := site.ins.stack.toInt.toNat / 4
    site.destructWords (site.ins.size.toNat / 4) first (first + site.ins.keep.toNat / 4)

/-- Steps the addressed word in place. -/
def applyStep (op : UnaryOp) : Lift Unit := do
  let index ← site.addressed
  let target ← site.access index .update
  let step ← site.alloc (.unary op target)
  site.emit step

def step : Lift Unit := do
  let op ← Lift.consult site.ins.unaryOperator
  site.applyStep op

end Site

end ScriptLift
