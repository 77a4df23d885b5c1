import AqsiosCoordinator.Coordinator.ClientRegistry
import AqsiosCoordinator.Coordinator.ReportFraming
import AqsiosCoordinator.Metadata.PlanManager
import AqsiosCoordinator.Metadata.SharedOperators
import AqsiosCoordinator.Metadata.PoolInvariant
import AqsiosCoordinator.Metadata.RegistrationFrame
import AqsiosCoordinator.Metadata.RegistrationRuns
import AqsiosCoordinator.Foundation.PortGraph
import AqsiosCoordinator.Metadata.PlanGraph
import AqsiosCoordinator.Metadata.Bypass
import AqsiosCoordinator.Metadata.PlanTransSoundness
import AqsiosCoordinator.Foundation.Unfolding
import AqsiosCoordinator.Metadata.Computation
import AqsiosCoordinator.Metadata.SharingKeepsComputations
import AqsiosCoordinator.Metadata.MergeEffects
import AqsiosCoordinator.Metadata.SharingConsistency
import AqsiosCoordinator.Metadata.SharingLevels
import AqsiosCoordinator.Metadata.SharedPlans
import AqsiosCoordinator.Coordinator.Redistribution
import AqsiosCoordinator.Foundation.ContinuousQuery
import AqsiosCoordinator.Foundation.Runs
import AqsiosCoordinator.Coordinator.MigrationThread
import AqsiosCoordinator.Coordinator.DestinationPorts
import AqsiosCoordinator.Coordinator.Script
import AqsiosCoordinator.Foundation.Pending
import AqsiosCoordinator.Coordinator.ScriptPairing
import AqsiosCoordinator.Foundation.Slots
import AqsiosCoordinator.Metadata.TableSlots
import AqsiosCoordinator.Foundation.LeastLabel
import AqsiosCoordinator.Metadata.QueryClasses
import AqsiosCoordinator.Metadata.SharedClasses
import AqsiosCoordinator.Querygen.LogNaivePlanGen
import AqsiosCoordinator.Querygen.LogPlanGen
import AqsiosCoordinator.Querygen.StreamFlags
import AqsiosCoordinator.Server.ServerImpl
import AqsiosCoordinator.Metadata.GeneratedFlags
import AqsiosCoordinator.Server.CallEffects
import AqsiosCoordinator.Server.StreamKinds
import AqsiosCoordinator.Metadata.FailedPlans
import AqsiosCoordinator.Server.FailedCalls
import AqsiosCoordinator.Metadata.OperatorComparison
import AqsiosCoordinator.Metadata.SharingRuns
import AqsiosCoordinator.Metadata.ComparisonOutcomes
import AqsiosCoordinator.Metadata.NullPredicates
import AqsiosCoordinator.Metadata.SelectFixpoint
import AqsiosCoordinator.Common.Interpretation
import AqsiosCoordinator.Foundation.Valuation
import AqsiosCoordinator.Metadata.PlanMeaning
import AqsiosCoordinator.Metadata.SelectMeaning
import AqsiosCoordinator.Metadata.SelectReferences
import AqsiosCoordinator.Metadata.ProjectMeaning
import AqsiosCoordinator.Querygen.PlanDenotation
import AqsiosCoordinator.Querygen.PlanSchemas
import AqsiosCoordinator.Querygen.PushedSelects
import AqsiosCoordinator.Querygen.BinaryCrosses
import AqsiosCoordinator.Querygen.BinaryCrossLinks
import AqsiosCoordinator.Querygen.GeneratedSchemas
import AqsiosCoordinator.Foundation.RowInvariants
import AqsiosCoordinator.Querygen.CoherentRows
import AqsiosCoordinator.Querygen.RemovedProjects
import AqsiosCoordinator.Querygen.PlanShapes
import AqsiosCoordinator.Querygen.SelectPlacement
import AqsiosCoordinator.Querygen.PlacedPredicates
import AqsiosCoordinator.Foundation.RowWise
import AqsiosCoordinator.Querygen.RstreamNow
import AqsiosCoordinator.Querygen.StreamCrosses
import AqsiosCoordinator.Coordinator.Numerals
import AqsiosCoordinator.Coordinator.LoadReports
import AqsiosCoordinator.Coordinator.ReportSafety
import AqsiosCoordinator.Coordinator.ActiveQueries
import AqsiosCoordinator.Metadata.BypassOutcome
import AqsiosCoordinator.Metadata.SharingLevelBound
import AqsiosCoordinator.Metadata.MissedSharing
import AqsiosCoordinator.Parser.Nodes
import AqsiosCoordinator.Querygen.SemInterp
import AqsiosCoordinator.Querygen.NameResolution
import AqsiosCoordinator.Foundation.FirstOccurrences
import AqsiosCoordinator.Querygen.CollectedAggregates
import AqsiosCoordinator.Querygen.QueryLimits
import AqsiosCoordinator.Querygen.PlanBudgets
import AqsiosCoordinator.Querygen.FittingPlans
import AqsiosCoordinator.Querygen.GenerationLimits
import AqsiosCoordinator.Coordinator.MigrationDecision
import AqsiosCoordinator.Coordinator.MovingAverages
import AqsiosCoordinator.Coordinator.ScriptFileReader
import AqsiosCoordinator.Querygen.RangeWindows
import AqsiosCoordinator.Foundation.Arena
import AqsiosCoordinator.Server.StoredQueries
import AqsiosCoordinator.Metadata.OperatorPool
import AqsiosCoordinator.Parser.ScanHelp
import AqsiosCoordinator.Coordinator.FileSource
import AqsiosCoordinator.Coordinator.TupleEncoding
import AqsiosCoordinator.Foundation.TimedQueue
import AqsiosCoordinator.Coordinator.TimedReaders
import AqsiosCoordinator.Server.SourceOperators
import AqsiosCoordinator.Querygen.DerivedSchemas
import AqsiosCoordinator.Querygen.PlanReferences
import AqsiosCoordinator.Metadata.GeneratedMeaning
import AqsiosCoordinator.Metadata.RegisteredQueries
import AqsiosCoordinator.Server.QueryResults
import AqsiosCoordinator.Metadata.BodyReferences
import AqsiosCoordinator.Metadata.OptimizedMeaning
import AqsiosCoordinator.Server.OptimizedResults
import AqsiosCoordinator.Foundation.Assignments
import AqsiosCoordinator.Querygen.QueryMeaning
import AqsiosCoordinator.Foundation.GrowingStreams
import AqsiosCoordinator.Querygen.GroundedQueries
import AqsiosCoordinator.Querygen.InstantsApart
import AqsiosCoordinator.Querygen.StreamMeaning
import AqsiosCoordinator.Server.AnswerableQueries
import AqsiosCoordinator.Server.QueryAnswers
import AqsiosCoordinator.Foundation.OperatorPrecedence
import AqsiosCoordinator.Parser.CommandReader
import AqsiosCoordinator.Parser.CommandTokens
import AqsiosCoordinator.Parser.NodePool
