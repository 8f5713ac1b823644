import ScriptLift.Compact.Draft
import ScriptLift.Lift

namespace ScriptLift.Draft

/-- The first argument that is written and never read, in a subroutine without a result. -/
def resultIndex? (draft : Draft) (sub : SubId) : Option Nat :=
  if (draft.tree.sub sub).result = .void then
    (draft.tree.sub sub).formals.findIdx? fun formal =>
      draft.facts.writesOf formal.slot ≠ [] ∧ draft.facts.readsOf formal.slot = []
  else none

/-- Takes the argument away from a call and remembers the slot that gets the result. -/
def takeArgument (index : Nat) (draft : Draft) (call : NodeId) : Draft :=
  match draft.tree.node call with
  | .call callee arguments =>
    match arguments[index]? with
    | some removed =>
      { tree := draft.tree.modify call fun _ => .call callee (arguments.eraseIdx index)
        facts :=
          if draft.tree.isSlot removed then draft.facts.setDestination call removed
          else draft.facts }
    | none => draft
  | _ => draft

def answer (slot : NodeId) (tree : Tree) (ret : NodeId) : Tree :=
  tree.modify ret fun
    | .ret _ => .ret (some slot)
    | node => node

/-- The subroutine declares the argument itself, every return answers it, and calls lose it. -/
def makeResult (draft : Draft) (sub : SubId) (index : Nat) (formal : Formal) : Draft :=
  let tree := draft.tree.modifySub sub fun s => { s with formals := s.formals.eraseIdx index }
  let tree := tree.modifySlot formal.slot fun s => { s with storage := .result }
  let tree := tree.modifyStatements (tree.sub sub).root (formal.slot :: ·)
  let tree := (draft.facts.returnsOf sub).foldl (answer formal.slot) tree
  let draft := (draft.facts.callsOf sub).foldl (takeArgument index) { draft with tree }
  let tree := draft.tree.modifySub sub fun s =>
    { s with
      result := formal.type
      name := if s.name = mainName then conditionalName else s.name }
  { draft with tree }

def recoverResult (routines : Routines) (state : Draft × Bool) (sub : SubId) : Draft × Bool :=
  match state.1.resultIndex? sub with
  | some index =>
    match (state.1.tree.sub sub).formals[index]? with
    | some formal => ((state.1.makeResult sub index formal).refresh routines, true)
    | none => state
  | none => state

/-- One pass over the output; says whether a result was found. -/
def recoverResults (routines : Routines) (draft : Draft) : Draft × Bool :=
  draft.tree.order.foldl (recoverResult routines) (draft, false)

end ScriptLift.Draft
