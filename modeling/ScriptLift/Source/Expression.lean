import ScriptLift.Error
import ScriptLift.Routine
import ScriptLift.Tree

namespace ScriptLift

namespace Expr

/-- The name of a slot: arguments by number, all others by the offset of their instruction. -/
def slotName (offset : Nat) (slot : Slot) : String :=
  match slot.storage with
  | .argument => "arg_" ++ toString (argumentNumber (slot.position.getD (-4)))
  | .global => "glob_" ++ Text.offset offset
  | .own | .result =>
    match slot.suffix with
    | some suffix => "var_" ++ Text.offset offset ++ "_" ++ suffix
    | none => "var_" ++ Text.offset offset

def slotDeclaration (offset : Nat) (slot : Slot) : String :=
  slot.type.keyword ++ " " ++ slotName offset slot

end Expr

namespace Source

variable (tree : Tree) (routines : Routines)

def labelText (label : NodeId) : String := "loc_" ++ Text.offset (tree.offset label)

def componentName : Nat → String
  | 0 => "x"
  | 1 => "y"
  | _ => "z"

/-- Texts of the parts, parted by `separator`; the first part that has none decides. -/
def joined (separator : String) (part : NodeId → Except Error String) (parts : List NodeId) :
    Except Error String := do
  return separator.intercalate (← parts.mapM part)

def operandText (text : NodeId → Except Error String) (id : NodeId) : Except Error String := do
  let inner ← text id
  return if (tree.kind id).isBinary then "(" ++ inner ++ ")" else inner

/-- A slot on its own is a declaration. -/
def statementText (text : NodeId → Except Error String) (id : NodeId) : Except Error String :=
  match tree.node id with
  | .slot slot => .ok (Expr.slotDeclaration (tree.offset id) slot)
  | _ => text id

/-- The text of a node with at most `depth` levels. -/
def textTo : Nat → NodeId → Except Error String
  | 0, _ => .ok ""
  | depth + 1, id =>
    match tree.node id with
    | .block statements => do
      let text ← joined " " (fun s => (· ++ ";") <$> statementText tree (textTo depth) s) statements
      return "\x7b " ++ text ++ " \x7d"
    | .literal value => .ok value.text
    | .slot slot => .ok (Expr.slotName (tree.offset id) slot)
    | .label => .ok (labelText tree id ++ ":")
    | .goto label => .ok ("goto " ++ labelText tree label)
    | .ret none => .ok "return"
    | .ret (some value) => do return "return " ++ (← textTo depth value)
    | .conditional test branch => do
      return "if (" ++ (← textTo depth test) ++ ") " ++ (← textTo depth branch)
    | .action routine arguments =>
      match routines.get? routine with
      | none => .error (.unknownRoutine routine)
      | some r => do return r.name ++ "(" ++ (← joined ", " (textTo depth) arguments) ++ ")"
    | .call callee arguments => do
      return (tree.sub callee).displayName ++ "(" ++ (← joined ", " (textTo depth) arguments) ++ ")"
    | .vector x y z => do return "vector(" ++ (← joined ", " (textTo depth) [x, y, z]) ++ ")"
    | .component whole index => do
      return (← operandText tree (textTo depth) whole) ++ "." ++ componentName index
    | .unary op operand => do
      let text ← operandText tree (textTo depth) operand
      return if op.isStep then text ++ op.symbol else op.symbol ++ text
    | .binary .assign left right declares => do
      let value ← textTo depth right
      match tree.slot? left, declares with
      | some slot, true => return Expr.slotDeclaration (tree.offset left) slot ++ " = " ++ value
      | _, _ => return (← textTo depth left) ++ " = " ++ value
    | .binary op left right _ => do
      let a ← operandText tree (textTo depth) left
      let b ← operandText tree (textTo depth) right
      return a ++ " " ++ op.symbol ++ " " ++ b

/-- A tree without cycles has no more levels than nodes. -/
def text (id : NodeId) : Except Error String := textTo tree routines (tree.size + 1) id

end Source

end ScriptLift
