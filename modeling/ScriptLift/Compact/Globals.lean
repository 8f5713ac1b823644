import ScriptLift.Compact.Draft
import ScriptLift.Dataflow.Evaluate
import ScriptLift.Lift

namespace ScriptLift.Draft

/-- A global that is assigned once takes the literal it is assigned, if there is one. -/
def foldGlobal (draft : Draft) (global : Global) : Global :=
  if global.value = none ∧ (draft.facts.writesOf global.slot).length = 1 then
    match draft.facts.evaluate draft.tree global.slot with
    | .ok value => { global with value := some value }
    | .error _ => global
  else global

def isRead (draft : Draft) (global : Global) : Bool := draft.facts.readsOf global.slot ≠ []

def dropSub (draft : Draft) (name : String) : Draft × Bool :=
  match draft.tree.subNamed? name with
  | some sub => ({ draft with tree := draft.tree.removeSub sub }, true)
  | none => (draft, false)

/-- Folds globals, drops those never read, and drops the subroutine that initializes them. -/
def foldGlobals (routines : Routines) (draft : Draft) : Draft × Bool :=
  let globals := draft.tree.globals
  let folded := globals.map draft.foldGlobal
  let changed := folded ≠ globals ∨ ¬ globals.all draft.isRead
  let tree := { draft.tree with globals := folded.filter draft.isRead }
  let dropped := dropSub { draft with tree } globalsName
  if changed ∨ dropped.2 then (dropped.1.refresh routines, true) else (dropped.1, false)

end ScriptLift.Draft
