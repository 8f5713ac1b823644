import ScriptLift.Compact.Rules

namespace ScriptLift.Draft

variable (settings : CompactSettings) (routines : Routines)

/-- Rewrites a block as long as it is part of the output, at most `limit` times. -/
def compactBlock (block : NodeId) : Nat → Draft → Draft × Bool
  | 0, draft => (draft, false)
  | limit + 1, draft =>
    if draft.facts.isLive block then
      match draft.rewrite? block settings with
      | some rewrite =>
        ((compactBlock block limit ((rewrite.apply block draft).refresh routines)).1, true)
      | none => (draft, false)
    else (draft, false)

/-- Puts the blocks of the output on the worklist, the first one on top. -/
def enqueueBlocks (draft : Draft) : Draft :=
  let blocks := draft.tree.order.flatMap draft.facts.blocksOf
  { draft with facts := blocks.reverse.foldl Facts.pushBlock draft.facts }

def compactNext (state : Draft × Bool) (block : NodeId) : Draft × Bool :=
  let draft := { state.1 with facts := state.1.facts.popBlock.2 }
  let next := compactBlock settings routines block (max 1 settings.maxRewrites) draft
  (next.1, state.2 || next.2)

/-- Compacts every block of the worklist and says whether one changed. -/
def compactBlocks (draft : Draft) : Draft × Bool :=
  let queued := draft.enqueueBlocks
  queued.facts.worklist.foldl (compactNext settings routines) (queued, false)

end ScriptLift.Draft
