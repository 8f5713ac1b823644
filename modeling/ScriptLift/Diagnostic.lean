import ScriptLift.Text.Hex

namespace ScriptLift

inductive Severity where
  /-- Unusual, without effect on the result. -/
  | warning
  /-- The block is incomplete. -/
  | error
  deriving DecidableEq, Repr

def Severity.text : Severity → String
  | .warning => "warning"
  | .error => "error"

/-- A report on a block, named by the entry of its subroutine and by its own start. -/
structure Diagnostic where
  severity : Severity
  subroutine : Nat
  block : Nat
  message : String
  deriving DecidableEq, Repr

def Diagnostic.text (d : Diagnostic) : String :=
  d.severity.text ++ ": block " ++ Text.offset d.block ++ ": " ++ d.message

abbrev Diagnostics := List Diagnostic

namespace Diagnostics

def push (ds : Diagnostics) (d : Diagnostic) : Diagnostics := ds ++ [d]

def warning (ds : Diagnostics) (subroutine block : Nat) (message : String) : Diagnostics :=
  ds.push ⟨.warning, subroutine, block, message⟩

def error (ds : Diagnostics) (subroutine block : Nat) (message : String) : Diagnostics :=
  ds.push ⟨.error, subroutine, block, message⟩

def about (ds : Diagnostics) (entry : Nat) : Diagnostics := ds.filter (·.subroutine = entry)

def hasErrors (ds : Diagnostics) : Bool := ds.any (·.severity = .error)

end Diagnostics

end ScriptLift
