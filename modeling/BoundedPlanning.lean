import BoundedPlanning.Problem.Reachability
import BoundedPlanning.Problem.Builder
import BoundedPlanning.Planner.Loop
import BoundedPlanning.Solver.Scripted
import BoundedPlanning.Json.Reader
import BoundedPlanning.Json.Writer
import BoundedPlanning.Calendar.Timestamp
import BoundedPlanning.Serialized.Planner
import BoundedPlanning.Yaml.Token
import BoundedPlanning.Yaml.Node
import BoundedPlanning.Files.Config
import BoundedPlanning.Files.Problem
import BoundedPlanning.Main
import BoundedPlanning.Proofs.Ascending
import BoundedPlanning.Proofs.Except
import BoundedPlanning.Proofs.Pairing
import BoundedPlanning.Proofs.VariableIndex
import BoundedPlanning.Proofs.Valuation
import BoundedPlanning.Proofs.AtMostOne
import BoundedPlanning.Proofs.Interference
import BoundedPlanning.Proofs.Layout
import BoundedPlanning.Proofs.Transition
import BoundedPlanning.Proofs.EncodedSteps
import BoundedPlanning.Proofs.Execution
import BoundedPlanning.Proofs.Trajectory
import BoundedPlanning.Proofs.WellFormedClauses
import BoundedPlanning.Proofs.Decoding
import BoundedPlanning.Proofs.EncodedPlans
import BoundedPlanning.Proofs.EncodingSize
import BoundedPlanning.Proofs.EncodingCorrectness
import BoundedPlanning.Proofs.Propagation
import BoundedPlanning.Proofs.Search
import BoundedPlanning.Proofs.ReferenceSolver
import BoundedPlanning.Proofs.SolverContract
import BoundedPlanning.Proofs.StepCounter
import BoundedPlanning.Proofs.Horizons
import BoundedPlanning.Proofs.PlannerCorrectness
import BoundedPlanning.Proofs.Serialization
import BoundedPlanning.Proofs.RelaxedReachability
import BoundedPlanning.Proofs.SemanticsComparison
import BoundedPlanning.Proofs.ScriptedSolver
import BoundedPlanning.Proofs.CapacityCheck
import BoundedPlanning.Proofs.Numbering
import BoundedPlanning.Proofs.RunEncoders
import BoundedPlanning.Proofs.VariableBlocks
import BoundedPlanning.Proofs.AccumulatedFormula
import BoundedPlanning.Proofs.SequentialExclusion
import BoundedPlanning.Proofs.FailedExecution
import BoundedPlanning.Proofs.ModelVerdict
import BoundedPlanning.Proofs.CallProtocol
import BoundedPlanning.Proofs.CallOrder
import BoundedPlanning.Proofs.GatheredStats
import BoundedPlanning.Proofs.RaisedBounds
import BoundedPlanning.Proofs.IntakeInvariant
import BoundedPlanning.Proofs.RunStatistics
import BoundedPlanning.Proofs.NamedProblems
import BoundedPlanning.Proofs.Loading
import BoundedPlanning.Proofs.PlanListing
import BoundedPlanning.Proofs.ConfiguredPlanning
import BoundedPlanning.Proofs.LearningEngine
import BoundedPlanning.Proofs.PrintedPlans
import BoundedPlanning.Proofs.DerivableFacts
import BoundedPlanning.Proofs.DecodedLiterals
import BoundedPlanning.Proofs.DistinctClauses
import BoundedPlanning.Proofs.FormulaShape
import BoundedPlanning.Proofs.InPlaceEncoding
import BoundedPlanning.Proofs.EncoderCalls
import BoundedPlanning.Proofs.CanonicalClauses
import BoundedPlanning.Proofs.FactSets
import BoundedPlanning.Proofs.ProblemParts
import BoundedPlanning.Proofs.BuilderRuns
import BoundedPlanning.Proofs.NameResolution
import BoundedPlanning.Proofs.UnitPropagation
import BoundedPlanning.Proofs.Decimals
import BoundedPlanning.Proofs.JsonTokens
import BoundedPlanning.Proofs.JsonRoundTrip
import BoundedPlanning.Proofs.WrittenTimestamps
import BoundedPlanning.Proofs.RecordForms
import BoundedPlanning.Proofs.SerializedForms
import BoundedPlanning.Proofs.SerializedTexts
