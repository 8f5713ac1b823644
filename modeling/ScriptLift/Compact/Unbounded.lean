import ScriptLift.Compact

/-! Compaction as it runs: no search, and no number of rounds, has a bound. -/
namespace ScriptLift

namespace Unbounded

section Rules

variable (draft : Draft) (block : NodeId)

/-- Index of the first statement of `block` that holds `target`. -/
def holding (target : NodeId) (descend : Bool) : Option (Option Nat) :=
  (draft.tree.statements block).zipIdx.findSomeM? fun (statement, index) => do
    let nodes ← draft.tree.search? descend statement
    return if target ∈ nodes then some index else none

def readsFollow (slot : NodeId) (index : Nat) : Option Bool :=
  (draft.facts.readsOf slot).allM fun read => do
    let position ← holding draft block read.node true
    return position.any (index < ·)

def initializer (slot : NodeId) (index : Nat) : Option (Option NodeId) :=
  match draft.facts.writesOf slot with
  | [⟨assign, some _⟩] =>
    match (draft.tree.statements block).idxOf? assign with
    | some position =>
      if index < position then do
        let follow ← readsFollow draft block slot position
        return if follow then some assign else none
      else some none
    | none => some none
  | _ => some none

def mergerAt (statement : NodeId) (index : Nat) : Option (Option Rewrite) := do
  let assign ← initializer draft block statement index
  return assign.map (.mergeDeclaration index)

def declarationAt (statement : NodeId) (index : Nat) : Option (Option Rewrite) :=
  match draft.tree.storage? statement with
  | some .own =>
    if draft.facts.readsOf statement = [] ∧ draft.facts.writesOf statement = [] then
      some (some (.dropDeclaration index))
    else mergerAt draft block statement index
  | some .result => mergerAt draft block statement index
  | _ => some none

def declaration : Option (Option Rewrite) :=
  (draft.tree.statements block).zipIdx.findSomeM? fun (statement, index) =>
    declarationAt draft block statement index

def deferredCall : Option (Option Rewrite) :=
  (draft.tree.statements block).findSomeM? fun statement => do
    let nodes ← draft.tree.search? false statement
    return nodes.findSome? draft.deferredCallAt?

def canMove (value : NodeId) (between : List NodeId) : Option Bool := do
  let moved ← draft.tree.search? true value
  let crossed ← between.flatMapM (draft.tree.search? true)
  return draft.mayCross moved crossed

def inliningAt (statement : NodeId) (index : Nat) : Option (Option Inlining) :=
  match draft.temporary? statement with
  | some (slot, value, read) => do
    match ← holding draft block read.node false with
    | some consumer =>
      let between := ((draft.tree.statements block).take consumer).drop (index + 1)
      if index < consumer then
        let free ← canMove draft value between
        return if free then some { index, slot, value, read, consumer } else none
      else return none
    | none => return none
  | none => some none

def inlining : Option (Option Rewrite) :=
  (draft.tree.statements block).zipIdx.findSomeM? fun (statement, index) => do
    let move ← inliningAt draft block statement index
    return move.map .inlineValue

def vector : Option (Option Rewrite) :=
  (draft.tree.statements block).findSomeM? fun statement => do
    let nodes ← draft.tree.search? false statement
    return nodes.findSome? draft.vectorAt?

/-- The rules in the order in which they are tried. -/
def rules (settings : CompactSettings) : List (Draft → NodeId → Option (Option Rewrite)) :=
  [declaration, deferredCall, fun draft block => some (draft.pendingCall? block)] ++
    (if settings.inlineTemporaries then [inlining, vector] else []) ++
    [fun draft block => some (draft.deadAssignment? block),
      fun draft block => some (draft.unusedLabel? block)]

/-- The first rewrite that applies. A rule is tried if all before it have returned without one. -/
def rewrite (settings : CompactSettings) : Option (Option Rewrite) :=
  (rules settings).findSomeM? fun rule => rule draft block

end Rules

variable (settings : CompactSettings) (routines : Routines)

def compactBlock (block : NodeId) : Nat → Draft → Option (Draft × Bool)
  | 0, draft => some (draft, false)
  | limit + 1, draft =>
    if draft.facts.isLive block then do
      match ← rewrite draft block settings with
      | some rewrite =>
        let next ← compactBlock block limit ((rewrite.apply block draft).refresh routines)
        return (next.1, true)
      | none => return (draft, false)
    else some (draft, false)

def compactNext (state : Draft × Bool) (block : NodeId) : Option (Draft × Bool) := do
  let draft := { state.1 with facts := state.1.facts.popBlock.2 }
  let next ← compactBlock settings routines block (max 1 settings.maxRewrites) draft
  return (next.1, state.2 || next.2)

def compactBlocks (draft : Draft) : Option (Draft × Bool) :=
  let queued := draft.enqueueBlocks
  queued.facts.worklist.foldlM (compactNext settings routines) (queued, false)

def round (draft : Draft) : Option (Draft × Bool) := do
  let recovered :=
    if settings.recoverResults then draft.recoverResults routines else (draft, false)
  let compacted ← compactBlocks settings routines recovered.1
  return (compacted.1, recovered.2 || compacted.2)

/-- One round more, or an end behind one that changes nothing. -/
def nextRound (state : Draft × Bool) : Option (Draft × Bool ⊕ Draft × Bool) := do
  let next ← round settings routines state.1
  return if next.2 then .inl (next.1, true) else .inr (next.1, state.2)

/-- Rounds until one changes nothing. -/
def settle (draft : Draft) : Option (Draft × Bool) :=
  loop (nextRound settings routines) (draft, false)

def compact (draft : Draft) : Option (Draft × Bool) := do
  let started := draft.dropSub startName
  let refreshed := started.1.refresh routines
  let folded :=
    if settings.foldGlobals then refreshed.foldGlobals routines else (refreshed, false)
  let settled ← settle settings routines folded.1
  let stripped := settled.1.tree.stripReturns
  return ({ settled.1 with tree := stripped.1 }, started.2 || folded.2 || settled.2 || stripped.2)

end Unbounded

/-- Compacts a tree and says whether it changed; `none` if compaction does not return. -/
def optimize (routines : Routines) (settings : CompactSettings) (tree : Tree) :
    Option (Tree × Bool) :=
  if settings.enabled then do
    let compacted ← Unbounded.compact settings routines { tree }
    return (compacted.1.tree, compacted.2)
  else some (tree, false)

end ScriptLift
