import ScriptLift.Dataflow.Index
import ScriptLift.Dataflow.Trace

namespace ScriptLift

structure Facts where
  reads : Index Read := {}
  writes : Index Write := {}
  gotos : Index NodeId := {}
  calls : Index NodeId := {}
  returns : Index NodeId := {}
  blocks : Index NodeId := {}
  live : List NodeId := []
  /-- Slots that are to take the result of a call. -/
  destinations : List (NodeId × NodeId) := []
  /-- Blocks to be compacted, the next one first. -/
  worklist : List NodeId := []
  deriving DecidableEq

namespace Facts

/-- Reads of a slot in the order of the walk. -/
def readsOf (facts : Facts) (slot : NodeId) : List Read := facts.reads.get slot.index

def writesOf (facts : Facts) (slot : NodeId) : List Write := facts.writes.get slot.index

def gotosTo (facts : Facts) (label : NodeId) : List NodeId := facts.gotos.get label.index

def callsOf (facts : Facts) (callee : SubId) : List NodeId := facts.calls.get callee.index

def returnsOf (facts : Facts) (sub : SubId) : List NodeId := facts.returns.get sub.index

/-- Blocks of a subroutine in the order of the walk, its root first. -/
def blocksOf (facts : Facts) (sub : SubId) : List NodeId := facts.blocks.get sub.index

def isLive (facts : Facts) (block : NodeId) : Bool := facts.live.contains block

def record (facts : Facts) : Event → Facts
  | .read slot read => { facts with reads := facts.reads.add slot.index read }
  | .write slot write => { facts with writes := facts.writes.add slot.index write }
  | .goto label node => { facts with gotos := facts.gotos.add label.index node }
  | .call callee node => { facts with calls := facts.calls.add callee.index node }
  | .ret sub node => { facts with returns := facts.returns.add sub.index node }
  | .block sub node =>
    { facts with blocks := facts.blocks.add sub.index node, live := node :: facts.live }

/-- Forgets all events; destinations and the worklist do not come from events and stay. -/
def clear (facts : Facts) : Facts :=
  { destinations := facts.destinations, worklist := facts.worklist }

def analyze (facts : Facts) (tree : Tree) (routines : Routines) : Facts :=
  (Event.trace tree routines).foldl record facts.clear

def setDestination (facts : Facts) (call slot : NodeId) : Facts :=
  { facts with destinations := (call, slot) :: facts.destinations.filter (·.1 ≠ call) }

def destination? (facts : Facts) (call : NodeId) : Option NodeId := facts.destinations.lookup call

def dropDestination (facts : Facts) (call : NodeId) : Facts :=
  { facts with destinations := facts.destinations.filter (·.1 ≠ call) }

def pushBlock (facts : Facts) (block : NodeId) : Facts :=
  { facts with worklist := block :: facts.worklist }

def popBlock (facts : Facts) : Option NodeId × Facts :=
  (facts.worklist.head?, { facts with worklist := facts.worklist.tail })

end Facts

end ScriptLift
