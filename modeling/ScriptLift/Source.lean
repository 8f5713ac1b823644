import ScriptLift.Settings
import ScriptLift.Source.Expression
import ScriptLift.Total

namespace ScriptLift.Source

/-- Texts of blocks by level, so that a shared block is laid out once per level. -/
abbrev Cache := List ((NodeId × Nat) × String)

abbrev Render := StateT Cache (Except Error)

variable (tree : Tree) (routines : Routines) (settings : SourceSettings)

def indentation (level : Nat) : String :=
  String.ofList (List.replicate (level * settings.indent) ' ')

/-- The lines of a statement in a block at `level`; `nested` lays out the branch of a conditional. -/
def lines (nested : NodeId → Render String) (level : Nat) (statement : NodeId) : Render String :=
  match tree.node statement with
  | .label => pure (indentation settings level ++ labelText tree statement ++ ":\n")
  | .conditional test branch => do
    let condition ← text tree routines test
    let body ← nested branch
    return indentation settings (level + 1) ++ "if (" ++ condition ++ ")\n" ++ body
  | _ => do
    let line ← statementText tree (text tree routines) statement
    return indentation settings (level + 1) ++ line ++ ";\n"

/-- A block with at most `depth` levels of blocks. -/
def blockTo : Nat → Nat → NodeId → Render String
  | 0, _, _ => pure ""
  | depth + 1, level, block => do
    match (← get).lookup (block, level) with
    | some known => pure known
    | none =>
      let body ← (tree.statements block).mapM
        (lines tree routines settings (blockTo depth (level + 1)) level)
      let outer := indentation settings level
      let whole := outer ++ "\x7b\n" ++ String.join body ++ outer ++ "\x7d\n"
      modify (((block, level), whole) :: ·)
      return whole

def body (root : NodeId) : Render String := blockTo tree routines settings (tree.size + 1) 0 root

def globalLine (global : Global) : Option String :=
  (tree.slot? global.slot).map fun slot =>
    let declaration := Expr.slotDeclaration (tree.offset global.slot) slot
    match global.value with
    | some value => declaration ++ " = " ++ value.text ++ ";\n"
    | none => declaration ++ ";\n"

def formalText (formal : Formal) : String :=
  formal.type.keyword ++ " arg_" ++ toString formal.number

/-- What stands above the body: diagnostics as comments, then the signature. -/
def heading (sub : Subroutine) : List String :=
  let comments :=
    if settings.diagnostics then
      (tree.diagnostics.about sub.start).map fun d => "// " ++ d.text ++ "\n"
    else []
  comments ++ [sub.result.keyword ++ " " ++ sub.displayName ++ "(" ++
    ", ".intercalate (sub.formals.map formalText) ++ ")\n"]

/-- Pieces of text in the order in which they are written, and the failure that ends them. -/
structure Output where
  pieces : List String := []
  failure : Option Error := none
  deriving DecidableEq

/-- The subroutines, an empty line before each but the first. -/
def subroutines (first : Bool) (cache : Cache) : List Subroutine → Output
  | [] => {}
  | sub :: rest =>
    let above := (if first then [] else ["\n"]) ++ heading tree settings sub
    match body tree routines settings sub.root cache with
    | .error e => { pieces := above, failure := some e }
    | .ok (text, cache) =>
      let later := subroutines false cache rest
      { later with pieces := above ++ text :: later.pieces }

def output : Output :=
  let later := subroutines tree routines settings tree.globals.isEmpty [] tree.output.reverse
  { later with pieces := tree.globals.filterMap (globalLine tree) ++ later.pieces }

/-- The whole text, or the first failure. -/
def render : Except Error String :=
  let out := output tree routines settings
  match out.failure with
  | none => .ok (String.join out.pieces)
  | some e => .error e

/-- Bytes written into a sink that takes no more than `limit` of them. A failure of the tree counts
only if all pieces before it fit. -/
def renderInto (limit : Nat) : Except Error Nat :=
  let out := output tree routines settings
  let bytes := total (·.utf8ByteSize) out.pieces
  if limit < bytes then .error .sink
  else
    match out.failure with
    | none => .ok bytes
    | some e => .error e

end ScriptLift.Source
