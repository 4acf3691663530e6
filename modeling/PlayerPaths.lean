import PlayerPaths.Analysis
import PlayerPaths.Dependence.Json
import PlayerPaths.Execution.Json
import PlayerPaths.Flow.Reaching
import PlayerPaths.Formula.Json
import PlayerPaths.IL.Summary
import PlayerPaths.Input.Json
import PlayerPaths.Live.Recording
import PlayerPaths.Proofs.Calls.Reachable
import PlayerPaths.Proofs.Dependence.Control
import PlayerPaths.Proofs.Dependence.Slice
import PlayerPaths.Proofs.Execution.Binding
import PlayerPaths.Proofs.Execution.CallTable
import PlayerPaths.Proofs.Execution.ControlFlow
import PlayerPaths.Proofs.Execution.Fields
import PlayerPaths.Proofs.Execution.Heads
import PlayerPaths.Proofs.Execution.PlayableRuns
import PlayerPaths.Proofs.Execution.ScreenCells
import PlayerPaths.Proofs.Execution.ValueTypes
import PlayerPaths.Proofs.Execution.Vetoes
import PlayerPaths.Proofs.Execution.Widening
import PlayerPaths.Proofs.Flow.LeastSolution
import PlayerPaths.Proofs.Flow.Reaching
import PlayerPaths.Proofs.Formula.Integers
import PlayerPaths.Proofs.Graph.DepthFirst
import PlayerPaths.Proofs.IL.BaseTypes
import PlayerPaths.Proofs.Input.Reachability
import PlayerPaths.Proofs.Live.Agreement
import PlayerPaths.Proofs.Live.Driving
import PlayerPaths.Proofs.Live.Receivers
import PlayerPaths.Proofs.SmtLib.Checked
import PlayerPaths.Proofs.SmtLib.Scripts
import PlayerPaths.Proofs.Solve.Exhaustion
import PlayerPaths.Proofs.Solve.Expansion
import PlayerPaths.Proofs.Solve.Overflow
import PlayerPaths.Proofs.Solve.Refutation
import PlayerPaths.Proofs.Transform.Masking
import PlayerPaths.Proofs.Transform.Removal
import PlayerPaths.SmtLib.Json
import PlayerPaths.Solve.Search
import PlayerPaths.Transform.Handlers
import PlayerPaths.Transform.Masking
