namespace ScriptLift

structure LiftSettings where
  /-- Stop at the first block that cannot be lifted. -/
  strict : Bool := false
  /-- Deepest nesting of subroutine calls. -/
  maxDepth : Nat := 256
  deriving DecidableEq, Repr

namespace LiftSettings

def strictly : LiftSettings := { strict := true }

/-- Failing blocks are reported and left incomplete. -/
def leniently : LiftSettings := {}

end LiftSettings

structure CompactSettings where
  enabled : Bool := true
  /-- Turn initializers of globals into literals and drop the initializing subroutine. -/
  foldGlobals : Bool := true
  /-- Turn arguments that are only written into results. -/
  recoverResults : Bool := true
  /-- Move temporaries into their only use. -/
  inlineTemporaries : Bool := true
  /-- Rewrites of one block in one round; at least one is made. -/
  maxRewrites : Nat := 10000
  deriving DecidableEq, Repr

def CompactSettings.disabled : CompactSettings := { enabled := false }

structure SourceSettings where
  /-- Spaces per level. -/
  indent : Nat := 4
  /-- Put diagnostics above their subroutine as comments. -/
  diagnostics : Bool := true
  deriving DecidableEq, Repr

structure Settings where
  lift : LiftSettings := {}
  compact : CompactSettings := {}
  source : SourceSettings := {}
  deriving DecidableEq, Repr

end ScriptLift
