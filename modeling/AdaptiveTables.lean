import AdaptiveTables.Double
import AdaptiveTables.Grid.Plane
import AdaptiveTables.Grid.SettingsText
import AdaptiveTables.Proofs.DoubleOrder
import AdaptiveTables.Proofs.Bisect
import AdaptiveTables.Proofs.LineRuns
import AdaptiveTables.Proofs.LineStructure
import AdaptiveTables.Proofs.Exact
import AdaptiveTables.Proofs.LineConvergence
import AdaptiveTables.Proofs.MergedSeed
import AdaptiveTables.Proofs.PlaneRuns
import AdaptiveTables.Proofs.PlaneConvergence
import AdaptiveTables.Proofs.PlaneStructure
import AdaptiveTables.Proofs.Segments
import AdaptiveTables.Proofs.JoinedSegments
import AdaptiveTables.Proofs.SoundTables
import AdaptiveTables.Proofs.Quantile
import AdaptiveTables.Proofs.TableSlopes
import AdaptiveTables.Proofs.ExactScales
import AdaptiveTables.Proofs.Bins
import AdaptiveTables.Proofs.Searches
import AdaptiveTables.Proofs.MixtureRoundTrip
import AdaptiveTables.Proofs.MatchedRoundTrip
import AdaptiveTables.Proofs.CorrelatedDensity
import AdaptiveTables.Proofs.FirstWarning
import AdaptiveTables.Proofs.SearchLoops
import AdaptiveTables.Proofs.LineRegeneration
import AdaptiveTables.Proofs.PlaneRegeneration
import AdaptiveTables.Proofs.MixtureLaws
import AdaptiveTables.Proofs.EqualSides
import AdaptiveTables.Proofs.DirectMixtures
import AdaptiveTables.Proofs.MatchedGaps
import AdaptiveTables.Proofs.SingleEntries
import AdaptiveTables.Proofs.PrimaryGrids
import AdaptiveTables.Proofs.PrimaryQueries
import AdaptiveTables.Proofs.SampleRanges
import AdaptiveTables.Proofs.TableNodes
import AdaptiveTables.Proofs.PlaneWarnings
import AdaptiveTables.Proofs.SeedIntervals
import AdaptiveTables.Proofs.MixtureDensities
import AdaptiveTables.Proofs.BlendedDensities
import AdaptiveTables.Proofs.CoordinateDensity
import AdaptiveTables.Proofs.ValueCounts
import AdaptiveTables.Proofs.RefinementTurns
import AdaptiveTables.Proofs.RefinementEnds
import AdaptiveTables.Proofs.RecursiveBisection
import AdaptiveTables.Proofs.ContainerRuns
import AdaptiveTables.Proofs.LooserTolerances
import AdaptiveTables.Proofs.LocalRefinement
import AdaptiveTables.Proofs.FunctionCalls
import AdaptiveTables.Proofs.DirectCuts
import AdaptiveTables.Proofs.CriticalValues
import AdaptiveTables.Proofs.AffineFunctions
import AdaptiveTables.Proofs.GeneratedDistributions
import AdaptiveTables.Proofs.Brackets
import AdaptiveTables.Proofs.SearchBudgets
import AdaptiveTables.Proofs.TabulatedDensities
import AdaptiveTables.Proofs.UnitBaseOrder
import AdaptiveTables.Proofs.InterpolationRules
