import TimedMutation.Main
import TimedMutation.CommandLine.FileTree
import TimedMutation.Proofs.Mutation.Bounds
import TimedMutation.Proofs.Mutation.Detection
import TimedMutation.Proofs.Mutation.Ids
import TimedMutation.Proofs.Strategy.Blocks
import TimedMutation.Proofs.Strategy.RoundTrip
import TimedMutation.Proofs.Replay.Budget
import TimedMutation.Proofs.Replay.Lockstep
import TimedMutation.Proofs.Replay.Twins
import TimedMutation.Proofs.Replay.Untakeable
import TimedMutation.Proofs.Simulation.Reachable
import TimedMutation.Proofs.Expr.Grammar
import TimedMutation.Proofs.Mutation.Sink
import TimedMutation.Proofs.Simulation.Trace
import TimedMutation.Proofs.Expr.Eval
import TimedMutation.Proofs.Simulation.Progress
import TimedMutation.Proofs.Strategy.Symmetry
import TimedMutation.Proofs.Document.Json.Scalar
import TimedMutation.Proofs.Document.Json.RoundTrip
import TimedMutation.Proofs.Document.Record
import TimedMutation.Proofs.Automaton.Codec
import TimedMutation.Proofs.Plan.Events
import TimedMutation.Proofs.Plan.Prefix
import TimedMutation.Proofs.Plan.Turns
import TimedMutation.Proofs.Plan.Leases
import TimedMutation.Proofs.Simulation.Clocks
import TimedMutation.Proofs.Simulation.RuleMatch
import TimedMutation.Proofs.Mutation.Comparison
import TimedMutation.Proofs.Mutation.Constants
import TimedMutation.Proofs.Mutation.Invariants
import TimedMutation.Proofs.Mutation.Resets
import TimedMutation.Proofs.Guard.Conjuncts
import TimedMutation.Proofs.Guard.Mentions
import TimedMutation.Proofs.Update.Edits
import TimedMutation.Proofs.Strategy.Qualifier
import TimedMutation.Proofs.Expr.Dependence
import TimedMutation.Proofs.Expr.Rendering
import TimedMutation.Proofs.Guard.Relations
import TimedMutation.Proofs.Guard.RoundTrip
import TimedMutation.Proofs.Engine.Retry
import TimedMutation.Proofs.Engine.Wait
import TimedMutation.Proofs.Mutation.Score
import TimedMutation.Proofs.Text.TopLevel
