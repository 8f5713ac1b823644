import ScriptLift.Lift.Run

namespace ScriptLift

/-- Names that subroutines get by their place in the output. -/
def startName : String := "__start"

def globalsName : String := "__globals"

def mainName : String := "main"

/-- The main subroutine of a script that answers a question. -/
def conditionalName : String := "StartingConditional"

namespace Lift

/-- Jumps that need a label; a jump to itself goes back as well. -/
def needsLabel (ins : Instruction) : Bool :=
  match ins.opcode with
  | .jmp | .jz | .jnz => ins.jump ≤ 0
  | _ => false

def addLabel (state : Tree × List (Nat × NodeId)) (target : Nat) : Tree × List (Nat × NodeId) :=
  match state.2.lookup target with
  | some _ => state
  | none => (state.1.alloc target .label, (target, state.1.nextId) :: state.2)

/-- One label for every backward target, in program order. -/
def labels (program : Program) : Tree × List (Nat × NodeId) :=
  ((program.instructions.toList.filter needsLabel).map (·.target)).foldl addLabel ({}, [])

def start (tree : Tree) : Machine :=
  Machine.begin ⟨tree, [], []⟩ startName Program.entry Context.entering

def globalSlots (tree : Tree) (ids : List NodeId) : List NodeId :=
  ids.filter fun id => tree.storage? id = some .global

def collectGlobals (tree : Tree) : Tree :=
  let ids := (List.range tree.size).map NodeId.mk
  { tree with globals := (globalSlots tree ids).map fun slot => { slot } }

/-- The subroutine next to the start initializes the globals; those it declares bare are dropped. -/
def nameGlobals (tree : Tree) (id : SubId) : Tree :=
  let named := tree.modifySub id fun s => { s with name := globalsName }
  named.modifyStatements (named.sub id).root fun statements =>
    statements.filter fun s => tree.storage? s ≠ some .global

def nameMain (tree : Tree) (id : SubId) : Tree :=
  tree.modifySub id fun s =>
    { s with name := if s.result = .void then mainName else conditionalName }

/-- Names by place: the start, then the initializer if there are globals, then main. -/
def nameSubroutines (tree : Tree) : Tree :=
  match tree.globals, tree.order with
  | [], _ :: main :: _ => nameMain tree main
  | _ :: _, _ :: globals :: main :: _ => nameMain (nameGlobals tree globals) main
  | _ :: _, [_, globals] => nameGlobals tree globals
  | _, _ => tree

end Lift

/-- The tree of a program, if lifting ends. Fails on nesting that is too deep and, if strict, on any
block that cannot be lifted; else such blocks stay incomplete and are reported. -/
def lift (program : Program) (routines : Routines) (settings : LiftSettings) :
    Option (Except Error Tree) :=
  let (tree, labels) := Lift.labels program
  ((Lift.start tree).run { program, routines, labels } settings).map fun lifted =>
    lifted.map fun tree => Lift.nameSubroutines (Lift.collectGlobals tree)

end ScriptLift
