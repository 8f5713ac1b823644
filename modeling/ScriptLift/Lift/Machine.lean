import ScriptLift.Lift.Execute
import ScriptLift.Settings

namespace ScriptLift

/-- A block being filled, at the instruction to come. -/
structure Walk where
  block : NodeId
  start : Nat
  offset : Nat
  context : Context
  deriving DecidableEq

def Job.walk (job : Job) : Walk := ⟨job.block, job.start, job.start, job.context⟩

/-- Blocks are told apart by where they start and how deep the stack is there. -/
def Job.key (job : Job) : Nat × Nat := (job.start, job.context.depth)

/-- A subroutine in progress. -/
structure Activation where
  sub : SubId
  entry : Nat
  outer : Outer := []
  blocks : Blocks
  /-- Keys of the blocks that were begun. -/
  done : List (Nat × Nat) := []
  /-- Blocks not begun yet, the next one first. -/
  work : List Job
  walk : Option Walk := none
  /-- The last offset reached. -/
  last : Nat
  deriving DecidableEq

namespace Activation

def start (sub : SubId) (entry : Nat) (root : NodeId) (context : Context) : Activation :=
  let job : Job := ⟨root, entry, context⟩
  { sub, entry, blocks := [(job.key, root)], work := [job], last := entry }

def blockStart (act : Activation) : Nat :=
  match act.walk with
  | some walk => walk.start
  | none => act.entry

/-- Formal arguments from the words of the caller that were used. -/
def formals (tree : Tree) (outer : Outer) : List Formal :=
  outer.map fun (position, slot) =>
    { slot
      type := tree.type slot
      position
      pointer :=
        match tree.slot? slot with
        | some s => s.outerModified
        | none => false }

end Activation

/-- The whole state; the innermost subroutine stands first. -/
structure Machine where
  tree : Tree
  /-- Subroutines by entry. -/
  callees : List (Nat × SubId)
  active : List Activation
  deriving DecidableEq

namespace Machine

/-- Adds a subroutine with an empty body and begins it. -/
def begin (m : Machine) (name : String) (entry : Nat) (context : SubId → Context) : Machine :=
  let root := m.tree.nextId
  let sub := m.tree.nextSubId
  { tree := (m.tree.alloc entry (.block [])).addSub { name, start := entry, stop := entry, root }
    callees := (entry, sub) :: m.callees
    active := Activation.start sub entry root (context sub) :: m.active }

/-- A subroutine is complete once no block is left. -/
def finish (m : Machine) (act : Activation) (callers : List Activation) : Machine :=
  { m with
    tree := m.tree.modifySub act.sub fun s =>
      { s with stop := act.last, formals := Activation.formals m.tree act.outer }
    active := callers }

/-- An error comes up in a block of the first subroutine. One that ended a callee is passed on to the
caller as it is. Any other ends the subroutine if lifting is strict, and else only the block. -/
def abandon (settings : LiftSettings) (m : Machine) : List Activation → Error → Except Error Machine
  | [], e => .error e
  | act :: callers, e =>
    if e.isFinal then abandon settings m callers e
    else if settings.strict then abandon settings m callers (.block act.entry act.blockStart e)
    else .ok { m with
      tree := { m.tree with
        diagnostics := m.tree.diagnostics.error act.entry act.blockStart e.message }
      active := { act with walk := none } :: callers }

/-- Keeps what an instruction did, a failing one too. The block that it asks for comes next. -/
def commit (act : Activation) (ws : Workspace) : Activation :=
  { act with outer := ws.outer, blocks := ws.blocks, work := ws.spawned.toList ++ act.work }

/-- Executes the instruction of a walk. -/
def advance (script : Script) (settings : LiftSettings) (m : Machine) (act : Activation)
    (callers : List Activation) (walk : Walk) (ins : Instruction) : Except Error Machine :=
  let act := { act with last := max act.last walk.offset }
  let site : Site := ⟨ins, act.entry, walk.block, walk.start⟩
  let ws : Workspace := ⟨m.tree, walk.context, act.outer, act.blocks, none⟩
  match site.visit script m.callees ws with
  | .ok (.next offset) ws =>
    let onward : Walk := { walk with offset, context := ws.context }
    .ok { m with tree := ws.tree, active := { commit act ws with walk := some onward } :: callers }
  | .ok .stop ws =>
    .ok { m with tree := ws.tree, active := { commit act ws with walk := none } :: callers }
  | .ok (.enter target) _ =>
    let m := { m with active := act :: callers }
    if settings.maxDepth < m.active.length then
      abandon settings m m.active (.recursionLimit settings.maxDepth)
    else .ok (m.begin "" target walk.context.enter)
  | .error e ws => abandon settings { m with tree := ws.tree } (commit act ws :: callers) e

/-- One move of the machine; it rests once no subroutine is in progress. -/
def tick (script : Script) (settings : LiftSettings) (m : Machine) :
    Except Error (Option Machine) :=
  match m.active with
  | [] => .ok none
  | act :: callers =>
    match act.walk, act.work with
    | none, [] => .ok (some (m.finish act callers))
    | none, job :: work =>
      let act :=
        if job.key ∈ act.done then { act with work }
        else { act with work, done := job.key :: act.done, walk := some job.walk }
      .ok (some { m with active := act :: callers })
    | some walk, _ =>
      if walk.offset < script.program.length then
        match script.program.at? walk.offset with
        | none => some <$> abandon settings m m.active (.invalidOffset walk.offset)
        | some ins => some <$> advance script settings m act callers walk ins
      else .ok (some { m with active := { act with walk := none } :: callers })

end Machine

end ScriptLift
