import ScriptLift.Pipeline
import ScriptLift.Proofs.Compact.Alignment
import ScriptLift.Proofs.Compact.Declarations
import ScriptLift.Proofs.Compact.Effects
import ScriptLift.Proofs.Compact.Exits
import ScriptLift.Proofs.Compact.Idempotence
import ScriptLift.Proofs.Compact.Initializers
import ScriptLift.Proofs.Compact.Inlining
import ScriptLift.Proofs.Compact.Output
import ScriptLift.Proofs.Compact.Reporting
import ScriptLift.Proofs.Dataflow.Definitions
import ScriptLift.Proofs.Dataflow.Survey
import ScriptLift.Proofs.Lift.Actuals
import ScriptLift.Proofs.Lift.Aliasing
import ScriptLift.Proofs.Lift.Arguments
import ScriptLift.Proofs.Lift.Deferral
import ScriptLift.Proofs.Lift.Endings
import ScriptLift.Proofs.Lift.Entries
import ScriptLift.Proofs.Lift.Expansion
import ScriptLift.Proofs.Lift.Extents
import ScriptLift.Proofs.Lift.Flow
import ScriptLift.Proofs.Lift.Frames
import ScriptLift.Proofs.Lift.Heights
import ScriptLift.Proofs.Lift.Integrity
import ScriptLift.Proofs.Lift.Labels
import ScriptLift.Proofs.Lift.Ownership
import ScriptLift.Proofs.Lift.Promotion
import ScriptLift.Proofs.Lift.Pushes
import ScriptLift.Proofs.Lift.Refusals
import ScriptLift.Proofs.Lift.Sharing
import ScriptLift.Proofs.Lift.Starts
import ScriptLift.Proofs.Lift.Strictness
import ScriptLift.Proofs.Lift.Termination
import ScriptLift.Proofs.Lift.Transfers
import ScriptLift.Proofs.Program.Tiling
import ScriptLift.Proofs.Semantics.Simulation
import ScriptLift.Proofs.Source.Failures
import ScriptLift.Proofs.Source.Globals
import ScriptLift.Proofs.Source.Reading
import ScriptLift.Proofs.Source.Reports
import ScriptLift.Proofs.Source.Unknown
