import ScriptLift.Compact.Blocks
import ScriptLift.Compact.Globals
import ScriptLift.Compact.Results
import ScriptLift.Total

namespace ScriptLift

def Node.partCount : Node → Nat
  | .block statements => statements.length
  | node => node.operands.length

namespace Tree

/-- Operands, statements and arguments, counted with their owners. -/
def extent (tree : Tree) : Nat :=
  tree.size + total (·.node.partCount) tree.exprs.toList +
    total (·.formals.length) tree.subroutines.toList

/-- A bare return at the end of a subroutine without a result says nothing. -/
def stripReturn (state : Tree × Bool) (sub : SubId) : Tree × Bool :=
  let (tree, changed) := state
  let s := tree.sub sub
  match (tree.statements s.root).getLast? with
  | some last =>
    if s.result = .void ∧ tree.isBareReturn last then
      (tree.modifyStatements s.root (·.dropLast), true)
    else (tree, changed)
  | none => (tree, changed)

def stripReturns (tree : Tree) : Tree × Bool := tree.order.foldl stripReturn (tree, false)

end Tree

namespace Draft

variable (settings : CompactSettings) (routines : Routines)

/-- Results first, then blocks; fewer reads may bring out further results. -/
def round (draft : Draft) : Draft × Bool :=
  let recovered :=
    if settings.recoverResults then draft.recoverResults routines else (draft, false)
  let compacted := recovered.1.compactBlocks settings routines
  (compacted.1, recovered.2 || compacted.2)

/-- Rounds until one changes nothing, at most `limit` of them. -/
def settleWithin : Nat → Draft → Draft × Bool
  | 0, draft => (draft, false)
  | limit + 1, draft =>
    let next := draft.round settings routines
    if next.2 then ((settleWithin limit next.1).1, true) else next

/-- Every round that changes something shortens a block, an argument list or an operand, so the extent
of the tree bounds the rounds. -/
def settle (draft : Draft) : Draft × Bool :=
  settleWithin settings routines (Nat.pow (draft.tree.extent + 2) 12) draft

/-- All phases in order. -/
def compact (draft : Draft) : Draft × Bool :=
  let started := draft.dropSub startName
  let refreshed := started.1.refresh routines
  let folded :=
    if settings.foldGlobals then refreshed.foldGlobals routines else (refreshed, false)
  let settled := folded.1.settle settings routines
  let stripped := settled.1.tree.stripReturns
  ({ settled.1 with tree := stripped.1 }, started.2 || folded.2 || settled.2 || stripped.2)

end Draft

/-- A transformation of trees that says whether it changed anything. It always returns: `optimize` runs
without the bounds of `dataFlow`. -/
structure Optimizer where
  name : String
  description : String := "No description available"
  run : Tree → Tree × Bool

namespace Optimizer

def noop : Optimizer where
  name := "noop"
  description := "Keeps the raw decompiler output"
  run tree := (tree, false)

def dataFlow (routines : Routines) (settings : CompactSettings) : Optimizer where
  name := "data-flow"
  description := "Folds globals, recovers return values and inlines single-use temporaries"
  run tree :=
    if settings.enabled then
      let compacted := Draft.compact settings routines { tree }
      (compacted.1.tree, compacted.2)
    else (tree, false)

end Optimizer

end ScriptLift
