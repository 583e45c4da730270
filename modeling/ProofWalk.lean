import ProofWalk.Answer
import ProofWalk.Bytecode.Compiler
import ProofWalk.Bytecode.Instruction
import ProofWalk.Bytecode.Program
import ProofWalk.CommandLine.Arguments
import ProofWalk.CommandLine.Basic
import ProofWalk.Config.Basic
import ProofWalk.Config.File
import ProofWalk.Decimal.Double
import ProofWalk.Decimal.Layout
import ProofWalk.Decimal.Reader
import ProofWalk.Description
import ProofWalk.Engine
import ProofWalk.Error
import ProofWalk.FeatureMap
import ProofWalk.FeatureTable
import ProofWalk.Files
import ProofWalk.Grounding.Basic
import ProofWalk.Json
import ProofWalk.LabelledExample
import ProofWalk.Learning.DualScores
import ProofWalk.Learning.FixedWeights
import ProofWalk.Learning.GradientFinder
import ProofWalk.Learning.Graph
import ProofWalk.Learning.GroundedLine
import ProofWalk.Learning.Learner
import ProofWalk.Learning.Loss
import ProofWalk.Learning.Push
import ProofWalk.Learning.Regularizer
import ProofWalk.Learning.Rounds
import ProofWalk.Learning.Schedule
import ProofWalk.Learning.Trainer
import ProofWalk.Learning.Transitions
import ProofWalk.Logic.Basic
import ProofWalk.Logic.Numbering
import ProofWalk.Logic.Parser
import ProofWalk.Logic.Printer
import ProofWalk.Logic.Sketch
import ProofWalk.Machine.Basic
import ProofWalk.Machine.Interpreter
import ProofWalk.Machine.Key
import ProofWalk.Machine.State
import ProofWalk.Main
import ProofWalk.Parameters.Basic
import ProofWalk.Parameters.File
import ProofWalk.Pipeline.Backlog
import ProofWalk.Pipeline.Basic
import ProofWalk.Pipeline.Delivery
import ProofWalk.Progress
import ProofWalk.ProofGraph.Basic
import ProofWalk.ProofGraph.Store
import ProofWalk.Proofs.Bytecode.Layout
import ProofWalk.Proofs.Exact
import ProofWalk.Proofs.Features
import ProofWalk.Proofs.Learning.Balance
import ProofWalk.Proofs.Learning.Probabilities
import ProofWalk.Proofs.Learning.Ranges
import ProofWalk.Proofs.Learning.Work
import ProofWalk.Proofs.Logic.Labels
import ProofWalk.Proofs.Logic.Variables
import ProofWalk.Proofs.Machine.Activation
import ProofWalk.Proofs.Machine.Answers
import ProofWalk.Proofs.Machine.Derivations
import ProofWalk.Proofs.Machine.Entering
import ProofWalk.Proofs.Machine.Execution
import ProofWalk.Proofs.Machine.Expansion
import ProofWalk.Proofs.Machine.Keys
import ProofWalk.Proofs.Machine.Merging
import ProofWalk.Proofs.Machine.Reading
import ProofWalk.Proofs.Machine.Reporting
import ProofWalk.Proofs.Machine.Resolving
import ProofWalk.Proofs.Machine.Resuming
import ProofWalk.Proofs.Machine.Running
import ProofWalk.Proofs.ProofGraph.Classes
import ProofWalk.Proofs.ProofGraph.Stores
import ProofWalk.Proofs.Prover.Balance
import ProofWalk.Proofs.Prover.Gains
import ProofWalk.Proofs.Prover.Known
import ProofWalk.Proofs.Prover.Ledger
import ProofWalk.Proofs.Prover.Passes
import ProofWalk.Proofs.Prover.Queue
import ProofWalk.Proofs.Prover.Records
import ProofWalk.Proofs.Prover.Work
import ProofWalk.Proofs.Relation.Answers
import ProofWalk.Proofs.Relation.Edges
import ProofWalk.Proofs.Relation.Facts
import ProofWalk.Proofs.Relation.Scans
import ProofWalk.Proofs.Resolution.Derivation
import ProofWalk.Proofs.Resolution.Forms
import ProofWalk.Proofs.Resolution.Moves
import ProofWalk.Proofs.Resolution.Plain
import ProofWalk.Proofs.Resolution.Remainder
import ProofWalk.Proofs.Resolution.Unification
import ProofWalk.Proofs.Results
import ProofWalk.Prover.Basic
import ProofWalk.Prover.Nested
import ProofWalk.Prover.Options
import ProofWalk.Prover.PowerIteration
import ProofWalk.Prover.Push
import ProofWalk.Prover.Queue
import ProofWalk.Prover.Walk
import ProofWalk.Prover.Weighting
import ProofWalk.Registry
import ProofWalk.Relation.Basic
import ProofWalk.Relation.EdgeTable
import ProofWalk.Relation.FactTable
import ProofWalk.Relation.Row
import ProofWalk.Scalar
import ProofWalk.Squash
import ProofWalk.Text.Lines
import ProofWalk.Text.Numeral
import ProofWalk.Text.Visibility
import ProofWalk.Toml.Basic
import ProofWalk.Toml.Reader
import ProofWalk.Toml.Scalar
import ProofWalk.Proofs.Decimal.RoundTrip
import ProofWalk.Proofs.Grounding.Decoding
import ProofWalk.Proofs.Grounding.Push
import ProofWalk.Proofs.Grounding.Rounds
import ProofWalk.Proofs.Learning.Failures
import ProofWalk.Proofs.Learning.Fixed
import ProofWalk.Proofs.Learning.Gradient
import ProofWalk.Proofs.Learning.Listings
import ProofWalk.Proofs.Learning.PushGradient
import ProofWalk.Proofs.ProofGraph.Calls
import ProofWalk.Proofs.ProofGraph.Orders
import ProofWalk.Proofs.ProofGraph.Resolvents
import ProofWalk.Proofs.Machine.Heap
import ProofWalk.Proofs.Machine.Independence
import ProofWalk.Proofs.Machine.Nesting
import ProofWalk.Proofs.Grounding.Files
import ProofWalk.Proofs.Grounding.Inline
import ProofWalk.Proofs.Learning.Restarts
import ProofWalk.Proofs.Learning.Schedules
import ProofWalk.Proofs.Prover.PowerForms
import ProofWalk.Proofs.Prover.Greedy
import ProofWalk.Proofs.ParameterFiles
import ProofWalk.Proofs.Ranking
import ProofWalk.Proofs.Solutions
import ProofWalk.Proofs.Bytecode.Reloading
import ProofWalk.Proofs.Pipeline.Backlog
import ProofWalk.Proofs.Pipeline.Delivery
import ProofWalk.Proofs.Machine.Searching
import ProofWalk.Proofs.Prover.PathSums
import ProofWalk.Proofs.Learning.Averages
import ProofWalk.Proofs.Learning.Thresholds
