import ScriptLift.Diagnostic
import ScriptLift.Tree.Subroutine

namespace ScriptLift

structure Tree where
  exprs : Array Expr := #[]
  subroutines : Array Subroutine := #[]
  /-- Subroutines that are part of the output, by start. -/
  order : List SubId := []
  globals : List Global := []
  diagnostics : Diagnostics := []
  deriving DecidableEq

namespace Tree

def size (tree : Tree) : Nat := tree.exprs.size

def get? (tree : Tree) (id : NodeId) : Option Expr := tree.exprs[id.index]?

/-- A handle outside the tree stands for an empty block. -/
def get (tree : Tree) (id : NodeId) : Expr := (tree.get? id).getD ⟨0, .block []⟩

def node (tree : Tree) (id : NodeId) : Node := (tree.get id).node

def offset (tree : Tree) (id : NodeId) : Nat := (tree.get id).offset

def kind (tree : Tree) (id : NodeId) : Kind := (tree.node id).kind

def slot? (tree : Tree) (id : NodeId) : Option Slot :=
  match tree.node id with
  | .slot slot => some slot
  | _ => none

def isSlot (tree : Tree) (id : NodeId) : Bool := (tree.slot? id).isSome

def storage? (tree : Tree) (id : NodeId) : Option Storage := (tree.slot? id).map (·.storage)

def type (tree : Tree) (id : NodeId) : ValueType :=
  match tree.slot? id with
  | some slot => slot.type
  | none => .void

def statements (tree : Tree) (id : NodeId) : List NodeId :=
  match tree.node id with
  | .block statements => statements
  | _ => []

/-- Whether `offset` lies between the first and the last statement of a block. -/
def blockContains (tree : Tree) (id : NodeId) (offset : Nat) : Bool :=
  match (tree.statements id).head?, (tree.statements id).getLast? with
  | some first, some last => tree.offset first ≤ offset && offset ≤ tree.offset last
  | _, _ => false

def nextId (tree : Tree) : NodeId := ⟨tree.exprs.size⟩

def alloc (tree : Tree) (offset : Nat) (node : Node) : Tree :=
  { tree with exprs := tree.exprs.push ⟨offset, node⟩ }

def modify (tree : Tree) (id : NodeId) (f : Node → Node) : Tree :=
  { tree with exprs := tree.exprs.modify id.index fun e => { e with node := f e.node } }

def modifySlot (tree : Tree) (id : NodeId) (f : Slot → Slot) : Tree :=
  tree.modify id fun
    | .slot slot => .slot (f slot)
    | node => node

def modifyStatements (tree : Tree) (id : NodeId) (f : List NodeId → List NodeId) : Tree :=
  tree.modify id fun
    | .block statements => .block (f statements)
    | node => node

def pushStatement (tree : Tree) (block statement : NodeId) : Tree :=
  tree.modifyStatements block (· ++ [statement])

/-- A node without such an operand stays as it is. -/
def setOperand (tree : Tree) (id : NodeId) (role : Role) (operand : NodeId) : Tree :=
  tree.modify id fun node => (node.setOperand? role operand).getD node

def setDeclares (tree : Tree) (id : NodeId) (declares : Bool) : Tree :=
  tree.modify id fun
    | .binary op left right _ => .binary op left right declares
    | node => node

/-- A handle outside the tree stands for an empty subroutine at 0. -/
def sub (tree : Tree) (id : SubId) : Subroutine :=
  (tree.subroutines[id.index]?).getD { start := 0, stop := 0, root := ⟨tree.size⟩ }

def nextSubId (tree : Tree) : SubId := ⟨tree.subroutines.size⟩

/-- The new subroutine stands before those of the same start. -/
def addSub (tree : Tree) (sub : Subroutine) : Tree :=
  let before := fun id => decide ((tree.sub id).start < sub.start)
  { tree with
    subroutines := tree.subroutines.push sub
    order := tree.order.takeWhile before ++ tree.nextSubId :: tree.order.dropWhile before }

def modifySub (tree : Tree) (id : SubId) (f : Subroutine → Subroutine) : Tree :=
  { tree with subroutines := tree.subroutines.modify id.index f }

/-- Takes a subroutine out of the output; its nodes stay. -/
def removeSub (tree : Tree) (id : SubId) : Tree :=
  { tree with order := tree.order.filter (· ≠ id) }

def subNamed? (tree : Tree) (name : String) : Option SubId :=
  tree.order.find? fun id => (tree.sub id).name = name

def output (tree : Tree) : List Subroutine := tree.order.map tree.sub

end Tree

end ScriptLift
