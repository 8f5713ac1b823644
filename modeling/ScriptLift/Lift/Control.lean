import ScriptLift.Lift.Words

namespace ScriptLift

/-- Where to go on after an instruction. -/
inductive Flow where
  | next (offset : Nat)
  | stop
  /-- The subroutine at `target` has to be lifted first. -/
  | enter (target : Nat)
  deriving DecidableEq

namespace Site

variable (site : Site)

def targetLabel (labels : List (Nat × NodeId)) : Lift NodeId :=
  match labels.lookup site.ins.target with
  | some label => pure label
  | none => site.fail (.noLabel site.ins.target)

def warnSelfJump : Lift Unit :=
  modify fun ws => { ws with tree := { ws.tree with
    diagnostics := ws.tree.diagnostics.warning site.entry site.start
      ("jump at " ++ Text.offset site.ins.offset ++ " targets itself") } }

/-- Ends the block with a goto. -/
def jumpBack (labels : List (Nat × NodeId)) : Lift Unit := do
  if site.ins.jump = 0 then site.warnSelfJump else pure ()
  let label ← site.targetLabel labels
  let goto ← site.alloc (.goto label)
  site.emit goto

/-- A forward jump is followed in place; a backward one ends the block. -/
def jump (labels : List (Nat × NodeId)) : Lift Flow :=
  if 0 < site.ins.jump then pure (.next site.ins.target)
  else do
    site.jumpBack labels
    return .stop

/-- The block of a conditional: a goto if the jump goes back, else the code at the target. -/
def branchBlock (labels : List (Nat × NodeId)) : Lift NodeId :=
  if 0 < site.ins.jump then Lift.schedule site.ins.target
  else do
    let label ← site.targetLabel labels
    let block ← site.alloc (.block [])
    let goto ← site.alloc (.goto label)
    Lift.pushStatement block goto
    return block

def branch (labels : List (Nat × NodeId)) : Lift Unit := do
  let operand ← site.pop
  let zero ← site.alloc (.literal (.int 0))
  let test ← site.alloc (.binary site.ins.opcode.relation operand zero false)
  let block ← site.branchBlock labels
  let conditional ← site.alloc (.conditional test block)
  site.emit conditional

def followingJump (program : Program) : Lift Instruction :=
  match (program.at? site.ins.next).filter (·.opcode = .jmp) with
  | some jump => pure jump
  | none => site.fail .noJumpAfterState

/-- The code behind that jump runs later, on the stack as it is now. -/
def storeState (program : Program) : Lift Unit := do
  let jump ← site.followingJump program
  let block ← Lift.schedule jump.next
  modify fun ws => { ws with context := { ws.context with savedAction := some block } }

def actual (formal : Formal) : Lift NodeId := do
  let ws ← get
  let index ← site.check (Context.relativeIndex ws.context.depth formal.position)
  site.access index (if formal.pointer then .modify else .read)

def call (callee : SubId) : Lift Unit := do
  let ws ← get
  let arguments ← (ws.tree.sub callee).formals.mapM site.actual
  let call ← site.alloc (.call callee arguments)
  site.emit call

def ret : Lift Unit := do
  let ret ← site.alloc (.ret none)
  site.emit ret

end Site

end ScriptLift
